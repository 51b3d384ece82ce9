import Lineage.RecordFile.Basic

/-!
# The host of a tracker

A tracker works on a disk and on two tables that the store it tracks lends it: the history, which it
writes, and the snapshots, of which it only asks whether there are any. Operations on both tables
may be refused as a plan of failures says.
-/

namespace Lineage

/-- The operations on tables that may be refused. -/
inductive TableOperation where
  | get
  | put
  | delete
  | scan
  | isEmpty
  deriving DecidableEq, Repr

/-- A table in memory or in a record file. -/
inductive Table where
  | memory (rows : Rows)
  | recorded (t : RecordFile)

namespace Table

def rows : Table → Rows
  | .memory rows => rows
  | .recorded t => t.rows

/-- Stores a row. -/
def put (key value : Bytes) : Table → Disk.Action TableError Table
  | .memory rows => return .memory (rows.insert key value)
  | .recorded t => .recorded <$> t.put key value

/-- Deletes a row, which need not be there. -/
def delete (key : Bytes) : Table → Disk.Action TableError Table
  | .memory rows => return .memory (rows.erase key)
  | .recorded t => .recorded <$> t.delete key

end Table

structure Host where
  disk : Disk := {}
  /-- The compactions, by their keys. -/
  history : Table := .memory ∅
  snapshots : Rows := ∅
  outage : Outage TableOperation IoError := .quiet

namespace Host

/-- Something done on a host, which keeps what was done before a failure. -/
abbrev Action (ε α : Type) := ExceptT ε (StateM Host) α

/-- Runs an action on the host's disk. -/
def onDisk {ε α : Type} (a : Disk.Action ε α) : Action ε α := fun h =>
  let (r, disk) := a h.disk
  (r, { h with disk })

/-- Asks the plan of failures whether the next operation on a table goes through. -/
def consult (op : TableOperation) : Action TableError Unit := do
  let h ← get
  set { h with outage := h.outage.later }
  if let some e := h.outage 0 op then throw (.io e)

/-- The row of the history with a key. -/
def getRow (key : Bytes) : Action TableError (Option Bytes) := do
  consult .get
  return (← get).history.rows[key]?

/-- Changes the history, unless that is refused. -/
def changeHistory (op : TableOperation) (a : Table → Disk.Action TableError Table) :
    Action TableError Unit := do
  consult op
  let t ← onDisk (a (← get).history)
  modify fun h => { h with history := t }

/-- Stores a row in the history. -/
def putRow (key value : Bytes) : Action TableError Unit :=
  changeHistory .put (·.put key value)

/-- Deletes a row of the history. -/
def deleteRow (key : Bytes) : Action TableError Unit :=
  changeHistory .delete (·.delete key)

/-- All rows of the history in the order of their keys. -/
def scanRows : Action TableError (List (Bytes × Bytes)) := do
  consult .scan
  return (← get).history.rows.toList

/-- Whether there is no snapshot. -/
def noSnapshots : Action TableError Bool := do
  consult .isEmpty
  return (← get).snapshots.isEmpty

end Host

end Lineage
