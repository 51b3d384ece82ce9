import Std.Data.ExtTreeMap
import Lineage.Disk.Basic
import Lineage.SortedTable.FileName

/-!
# Stores and snapshots

What a tracker learns of the store it tracks, and of the snapshots of it that are compared.
-/

namespace Lineage

/-- A sorted table that a store reads from. -/
structure LiveFile where
  /-- The path or the name of the file. -/
  file : String
  family : String
  keys : UInt64
  smallest : Bytes
  largest : Bytes
  deriving DecidableEq, Repr

/-- The name of the table. -/
def LiveFile.name? (f : LiveFile) : Option String := SortedTable.nameAt? ⟨f.file⟩

/-- What a store answers when it is asked for its live files. -/
abbrev LiveFiles := Except IoError (List LiveFile)

/-- The store whose compactions are tracked. -/
structure Store where
  sequence : UInt64 := 0
  live : LiveFiles := .ok []

/-- The column family whose files every store reports. -/
def defaultFamily : String := "default"

/-- A compaction that the store runs. -/
structure Job where
  family : String
  inputs : List Path
  outputs : List Path
  reason : Option String := none

/-- A store as it was at a point of time. -/
structure Snapshot where
  /-- The sequence number of that time. -/
  generation : UInt64
  /-- The directory that holds its tables. -/
  dir : Path
  live : LiveFiles
  /-- For each column family of interest, what keys of interest begin with. -/
  prefixes : Std.ExtTreeMap String Bytes := ∅

end Lineage
