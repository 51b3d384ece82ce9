import Lineage.SortedTable.Reader
import Lineage.SortedTable.Writer

/-!
# Tables without values

A comparison of snapshots asks which keys a table touches and not what it puts there. A stripped
table has the same versions as the one it was made from, each with an empty value.
-/

namespace Lineage.SortedTable

/-- What stripping a table came upon. -/
structure Stripped where
  puts : UInt64 := 0
  tombstones : UInt64 := 0
  bytesDropped : UInt64 := 0
  deriving DecidableEq, Repr

/-- Counts one more entry. -/
def Stripped.count (s : Stripped) (e : Entry) : Stripped :=
  { puts := s.puts + if e.1.kind = .put then 1 else 0
    tombstones := s.tombstones + if e.1.kind = .deletion then 1 else 0
    bytesDropped := s.bytesDropped + e.2.length.toUInt64 }

/-- Adds the keys of entries to a table, up to the first that it refuses. -/
def stripInto (s : Stripped) : List Entry → Writer.Action Stripped
  | [] => pure s
  | e :: rest => do
    Writer.add e.1 []
    stripInto (s.count e) rest

/-- Writes a table's stripped copy. It has to have as many entries as were come upon. -/
def writeStripped (r : Reader) : Writer.Action Stripped := do
  let (entries, failure) := r.entries
  let s ← stripInto {} entries
  match failure with
  | some e => throw e
  | none =>
    let properties ← Writer.finish
    if properties.entries = s.puts + s.tombstones then return s
    else throw (.corrupt .countMismatch)

/-- The bytes written on the way to a table's stripped copy, and whether they are all of it. What a
failure leaves is what was written before it. -/
def strip (r : Reader) (blockSize : Nat) : Bytes × Except Error Stripped :=
  let (result, w) := (writeStripped r).run.run (.new blockSize)
  (w.written, result)

/-- Strips the table that a path leads to into another file. -/
def stripFile (source target : Path) (blockSize : Nat) : Disk.Action Error Stripped := do
  let r ← load source
  let (b, result) := strip r blockSize
  store target b
  ofExcept result

end Lineage.SortedTable
