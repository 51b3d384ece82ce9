import Lineage.Tracker.Basic

/-!
# Loading history

At its start a tracker moves the text logs it finds into the history, each of them being removed
once it is stored, and builds its graph from the history alone.
-/

namespace Lineage.Tracker

open World (onDisk onHost update)

/-- What loading the history found. -/
structure Loaded where
  logs : Nat := 0
  logCompactions : Nat := 0
  rows : Nat := 0
  deriving DecidableEq, Repr

/-! ## Text logs -/

/-- Stores a compaction from a text log. If another one has its key, its time moves on to the first
millisecond at which the key is free. Tells whether a row was added: none is if the history holds
the very compaction already, as after a start that was cut off. -/
def migrate (c : Compaction) : World.Action Error Bool := do
  match ← onHost .table (Host.getRow c.key) with
  | none =>
    onHost .table (Host.putRow c.key c.encode)
    return true
  | some row =>
    if row = c.encode then return false
    else if _h : c.time.toNat + 1 < UInt64.size then migrate { c with time := c.time + 1 }
    else throw .timeOverflow
termination_by UInt64.size - c.time.toNat
decreasing_by
  have : (c.time + 1).toNat = c.time.toNat + 1 := by
    rw [UInt64.toNat_add]
    exact Nat.mod_eq_of_lt ‹_›
  omega

/-- Stores compactions and tells how many rows were added. -/
def migrateAll : List Compaction → World.Action Error Nat
  | [] => return 0
  | c :: rest => do
    let added ← migrate c
    let more ← migrateAll rest
    return more + if added then 1 else 0

/-- Whether a file name is that of a text log. -/
def isLogName (name : String) : Bool := (SortedTable.dropEnd? name ".log".toList).isSome

/-- The text logs that are to be replayed, in the order of their names. -/
def textLogs : World.Action Error (List Path) := do
  let dir := (← get).tracker.logDir
  let names ← onDisk .io (Disk.listDirectory dir)
  let d := (← get).host.disk
  return ((names.filter isLogName).map dir.join).filter d.isFile

/-- Replays text logs one after the other, and removes each once its compactions are stored. -/
def migrateLogs (r : TextLog.Replay) (s : Loaded) : List Path → World.Action Error Loaded
  | [] => return s
  | p :: rest => do
    let (result, r) ← onDisk id (ExceptT.lift (r.runFile p))
    let cs ← ofExcept (result.mapError (.textLog p))
    let added ← migrateAll cs
    onDisk .io (Disk.removeFile p)
    migrateLogs r { s with logs := s.logs + 1, logCompactions := s.logCompactions + added } rest

/-! ## Rows -/

/-- Reads all rows. -/
def readRows (rows : List (Bytes × Bytes)) : Except History.Error (List (Bytes × Compaction)) :=
  rows.mapM fun (key, value) => (History.readRow value).map (key, ·)

/-- The tracker after it took in a row. -/
def load (t : Tracker) (row : Bytes × Compaction) : Tracker :=
  let t := { t with graph := t.graph.addCompaction row.2 }
  if t.options.stripValues then t.enqueue row.1 else t

/-- Loads the history. -/
def loadHistory : World.Action Error Loaded := do
  unless (← get).tracker.attached do throw .notAttached
  let s ← migrateLogs {} {} (← textLogs)
  let rows ← onHost .table Host.scanRows
  let rows ← ofExcept ((readRows rows).mapError .history)
  update fun t => rows.foldl load t
  return { s with rows := rows.length }

end Lineage.Tracker
