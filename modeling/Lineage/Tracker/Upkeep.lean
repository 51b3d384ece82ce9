import Lineage.SortedTable.Stripping
import Lineage.Tracker.Basic

/-!
# Upkeep

Upkeep bounds what a tracker keeps: history expires with its backups, backups of files that
compactions themselves made are dropped, and the backups that are left lose their values.
-/

namespace Lineage.Tracker

open World (onDisk onHost update)

/-! ## Errors -/

/-- Why a run of upkeep stopped. -/
inductive UpkeepError where
  | notAttached
  | io (e : IoError)
  | table (e : TableError)
  | history (e : History.Error)
  /-- A row that might expire cannot be read. -/
  | row (key : Bytes) (e : History.Error)
  /-- A backup cannot be stripped; which one, the error may tell. -/
  | strip (path : Option Path) (e : SortedTable.Error)
  deriving DecidableEq, Repr

def UpkeepError.message? : UpkeepError → Option String
  | .notAttached => Error.message? .notAttached
  | .io e => e.message?
  | .table e => e.message?
  | .history e => some e.message
  | .row _ e => some e.message
  | .strip _ e => e.message?

/-- What the run was about when the error arose, where the error tells it. -/
def UpkeepError.context? : UpkeepError → Option String
  | .row key _ => some ("decode compaction log entry " ++ Text.quoteBytes key)
  | .strip path _ => path.map fun p => "strip values from " ++ p.text
  | _ => none

/-! ## Expiry -/

/-- What expired in one run. -/
structure Expired where
  compactions : Nat := 0
  names : Names := ∅
  backups : Nat := 0
  deriving DecidableEq, Repr

/-- The age below which history is kept, in milliseconds that fit into a word. -/
def ageLimit (o : Options) : UInt64 := UInt64.ofNat o.maxAge.milliseconds

/-- Whether something of a time is younger than a limit. The age of what lies ahead is zero. -/
def younger (now limit time : UInt64) : Bool := now.toNat - time.toNat < limit.toNat

/-- The rows from the first one on that have expired, up to the first that has not. -/
def expiredRows (now limit : UInt64) :
    List (Bytes × Bytes) → Except UpkeepError (List (Bytes × Compaction))
  | [] => .ok []
  | (key, value) :: rest => do
    let c ← (History.readRow value).mapError (.row key)
    if younger now limit c.time then return []
    else return (key, c) :: (← expiredRows now limit rest)

/-- Removes the backups of files, as far as it can, and tells how many it removed. -/
def removeBackups : List String → World.Action UpkeepError Nat
  | [] => return 0
  | name :: rest => do
    let removed ←
      try
        onDisk .io (Disk.removeFile ((← get).tracker.backupPath name))
        pure 1
      catch _ => pure 0
    return removed + (← removeBackups rest)

def deleteRows : List Bytes → World.Action UpkeepError Unit
  | [] => return ()
  | key :: rest => do
    onHost .table (Host.deleteRow key)
    deleteRows rest

/-- Drops compactions that have expired from the graph and the history, with the backups of the
files that go. -/
def expireHistory (now : UInt64) : World.Action UpkeepError Expired := do
  let t := (← get).tracker
  unless t.active do return {}
  unless t.attached do throw .notAttached
  let rows ← onHost .table Host.scanRows
  let expired ← ofExcept (expiredRows now (ageLimit t.options) rows)
  if expired.isEmpty then return {}
  let (names, graph) := t.graph.expire (expired.flatMap fun row => row.2.inputNames)
  update ({ · with graph })
  let backups ← removeBackups names.toList
  deleteRows (expired.map Prod.fst)
  return { compactions := expired.length, names, backups }

/-- Removes the backups of files that came out of compactions: only files at the end of recorded
history are ever reported as different. Tells how many it removed. -/
def dropOutputBackups : World.Action UpkeepError Nat := do
  let t := (← get).tracker
  if t.active then removeBackups t.graph.outputNames else return 0

/-! ## Stripping -/

/-- What one run of stripping did. -/
structure StripRun where
  compactions : Nat := 0
  filesStripped : Nat := 0
  filesSkipped : Nat := 0
  deriving DecidableEq, Repr

def countSkipped (t : Tracker) : Tracker :=
  { t with metrics := { t.metrics with filesSkipped := t.metrics.filesSkipped + 1 } }

def countStripped (t : Tracker) : Tracker :=
  { t with metrics := { t.metrics with filesStripped := t.metrics.filesStripped + 1 } }

def countBatch (t : Tracker) : Tracker :=
  { t with metrics := { t.metrics with batches := t.metrics.batches + 1 } }

def countFailure (t : Tracker) : Tracker :=
  { t with metrics := { t.metrics with failures := t.metrics.failures + 1 } }

/-- Puts a stripped copy in the place of a backup. -/
def stripBackup (path : Path) : World.Action UpkeepError Unit := do
  let t := (← get).tracker
  discard <| onDisk .io (Disk.discardFile t.scratchPath)
  discard <| onDisk (.strip (some path))
    (SortedTable.stripFile path t.scratchPath t.options.stripBlockSize)
  onDisk .io (Disk.rename t.scratchPath path)
  onDisk (fun e => .strip none (.io e)) (Disk.settle path)

/-- Strips the backups of files that are not stripped yet and have one; gives the files as they are
then, and the run so far. -/
def stripInputs (run : StripRun) :
    List FileInfo → World.Action UpkeepError (List FileInfo × StripRun)
  | [] => return ([], run)
  | i :: rest => do
    let w ← get
    let path := w.tracker.backupPath i.name
    if i.stripped then
      let (more, run) ← stripInputs run rest
      return (i :: more, run)
    else if w.host.disk.present path then
      stripBackup path
      update countStripped
      let (more, run) ← stripInputs { run with filesStripped := run.filesStripped + 1 } rest
      return ({ i with stripped := true } :: more, run)
    else
      update countSkipped
      let (more, run) ← stripInputs { run with filesSkipped := run.filesSkipped + 1 } rest
      return (i :: more, run)

/-- Strips the backups of the inputs of the compaction with a key, and notes it in the row. A row
that is gone by now needs nothing. -/
def stripCompaction (run : StripRun) (key : Bytes) : World.Action UpkeepError StripRun := do
  let some row ← onHost .table (Host.getRow key) | return run
  let c ← ofExcept ((History.readRow row).mapError .history)
  let (inputs, run) ← stripInputs run c.inputs
  if inputs ≠ c.inputs then
    if (← onHost .table (Host.getRow key)).isSome then
      onHost .table (Host.putRow key { c with inputs }.encode)
  return run

/-- Handles the first of the queued compactions, no more than `left` of them. A failure leaves the
one it arose from at the head of the queue. -/
def stripQueued : (left : Nat) → StripRun → World.Action UpkeepError StripRun
  | 0, run => return run
  | left + 1, run => do
    let key :: rest := (← get).tracker.queue | return run
    let run ←
      try stripCompaction run key
      catch e =>
        update countFailure
        throw e
    update ({ · with queue := rest })
    stripQueued left { run with compactions := run.compactions + 1 }

/-- Strips the inputs of queued compactions. -/
def stripBackups : World.Action UpkeepError StripRun := do
  let t := (← get).tracker
  unless t.active && t.options.stripValues do return {}
  unless t.attached do throw .notAttached
  update countBatch
  stripQueued t.options.stripBatch {}

/-! ## Rounds -/

/-- Runs a task and goes on whether or not it fails. -/
def attempt {α : Type} (a : World.Action UpkeepError α) : StateM World Unit := do
  discard a.run

/-- Every kind of upkeep once. -/
def upkeep (now : UInt64) : StateM World Unit := do
  attempt (expireHistory now)
  attempt dropOutputBackups
  attempt stripBackups

end Lineage.Tracker
