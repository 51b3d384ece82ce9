/-!
# Options

What a tracker can be told: how long history is kept, how often and how much upkeep is done, whose
compactions are tracked, and where its files are.
-/

namespace Lineage

/-- A length of time: whole seconds, and nanoseconds short of one more. -/
structure Duration where
  seconds : UInt64
  nanos : Nat := 0
  nanos_lt : nanos < 1_000_000_000 := by decide
  deriving DecidableEq, Repr

namespace Duration

/-- The time of so many seconds and nanoseconds, if its seconds fit into a word. -/
def ofParts? (seconds : UInt64) (nanos : Nat) : Option Duration :=
  if seconds.toNat + nanos / 1_000_000_000 < UInt64.size then
    some ⟨seconds + (nanos / 1_000_000_000).toUInt64, nanos % 1_000_000_000,
      Nat.mod_lt _ (by decide)⟩
  else none

/-- The whole milliseconds. -/
def milliseconds (d : Duration) : Nat := d.seconds.toNat * 1000 + d.nanos / 1_000_000

def isZero (d : Duration) : Bool := d.seconds = 0 ∧ d.nanos = 0

end Duration

structure Options where
  /-- Compactions that are older expire. -/
  maxAge : Duration := ⟨30 * 24 * 60 * 60, 0, by decide⟩
  /-- The time between runs of upkeep; there are none if it is zero. -/
  upkeepInterval : Duration := ⟨60 * 60, 0, by decide⟩
  /-- How many compactions one run of stripping handles. -/
  stripBatch : Nat := 2000
  /-- Whether values are stripped from backups. -/
  stripValues : Bool := true
  /-- The column families whose compactions are tracked. -/
  trackedFamilies : List String := ["keyTable", "directoryTable", "fileTable"]
  /-- The block size of stripped tables. -/
  stripBlockSize : Nat := 4096
  /-- The level at which a walk is taken to run in a cycle. -/
  maxLevels : Nat := 1000000
  /-- How long closing waits for upkeep to stop. -/
  shutdownTimeout : Duration := ⟨60, 0, by decide⟩
  backupDirName : String := "compaction-sst-backup"
  logDirName : String := "compaction-log"
  deriving DecidableEq, Repr

/-- Whether the compactions of a column family are tracked. -/
def Options.tracks (o : Options) (family : String) : Bool := family ∈ o.trackedFamilies

end Lineage
