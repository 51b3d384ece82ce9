import Lineage.Graph.Expiry
import Lineage.Graph.Walk
import Lineage.History.Error
import Lineage.Host
import Lineage.Options
import Lineage.SortedTable.FileName
import Lineage.Store
import Lineage.TextLog.Replay

/-!
# Trackers

A tracker records the compactions of a store in a graph and in a table, and keeps a backup of each
file that a compaction replaces. It is opened on a directory of its own and can be used once tables
are attached to it.
-/

namespace Lineage

/-- What upkeep has come to since the tracker was opened. -/
structure Metrics where
  filesStripped : Nat := 0
  filesSkipped : Nat := 0
  batches : Nat := 0
  failures : Nat := 0
  deriving DecidableEq, Repr

structure Tracker where
  dir : Path
  options : Options
  attached : Bool := false
  graph : Graph := {}
  /-- What was known of files when a compaction of them began that is not over. -/
  inFlight : Std.ExtTreeMap String FileInfo := ∅
  /-- The keys of compactions whose inputs are to be stripped, without repetitions. -/
  queue : List Bytes := []
  suspended : Bool := false
  closed : Bool := false
  metrics : Metrics := {}

namespace Tracker

/-! ## Errors -/

inductive Error where
  /-- No tables are attached. -/
  | notAttached
  /-- A walk through the graph came to so many levels that it is taken to run in a cycle. -/
  | levelLimit (levels : Nat)
  /-- A file that is to be a sorted table is not named as one. -/
  | invalidName (text : String)
  /-- A sorted table that differs is nowhere to be found. -/
  | notLocated (name : String)
  | io (e : IoError)
  | table (e : TableError)
  | history (e : History.Error)
  /-- A text log cannot be replayed. -/
  | textLog (path : Path) (e : TextLog.Error)
  /-- A compaction from a text log finds no free key. -/
  | timeOverflow
  deriving DecidableEq, Repr

def Error.message? : Error → Option String
  | .notAttached => some "compaction log table is not attached"
  | .levelLimit n => some s!"diff traversal exceeded {n} levels; compaction DAG is corrupt"
  | .invalidName s => some ("invalid SST file name " ++ Text.quote s)
  | .notLocated n => some ("unable to locate SST file " ++ n)
  | .io e => e.message? "io error: "
  | .table e => e.message?.map ("table error: " ++ ·)
  | .history e => some ("log error: " ++ e.message)
  | .textLog _ e => e.message?
  | .timeOverflow => some "legacy compaction time overflow"

/-- What the tracker was about when the error arose, where the error tells it. -/
def Error.context? : Error → Option String
  | .textLog p _ => some ("replay legacy compaction log " ++ p.text)
  | _ => none

/-! ## Files -/

def backupDir (t : Tracker) : Path := t.dir.join t.options.backupDirName

/-- The directory of the text logs that are still to be replayed. -/
def logDir (t : Tracker) : Path := t.dir.join t.options.logDirName

/-- The backup of the table with the given name. -/
def backupPath (t : Tracker) (name : String) : Path := SortedTable.pathIn t.backupDir name

/-- Where stripped tables are written before they take the place of a backup. -/
def scratchPath (t : Tracker) : Path := t.backupDir.join "pruned.sst.tmp"

def readmeText : String :=
  "This directory holds legacy compaction logs that are replayed " ++
  "into the compaction log table on startup and then deleted.\n"

/-- Opens a tracker on a directory: makes its directories, and removes what a stripping that was
cut off left behind. -/
def openAt (dir : Path) (options : Options) : Disk.Action IoError Tracker := do
  let t : Tracker := { dir, options }
  Disk.makeDirectories t.backupDir
  Disk.makeDirectories t.logDir
  let readme := t.logDir.join "_README.txt"
  unless (← get).present readme do Disk.writeFile readme (Bytes.ofText readmeText)
  discard <| Disk.discardFile t.scratchPath
  return t

/-! ## State -/

/-- Whether upkeep does anything. -/
def active (t : Tracker) : Bool := !t.suspended && !t.closed

/-- The tracker with one more key to strip, unless it has it. -/
def enqueue (t : Tracker) (key : Bytes) : Tracker :=
  if t.queue.contains key then t else { t with queue := t.queue ++ [key] }

def attach (t : Tracker) : Tracker := { t with attached := true }

def suspend (t : Tracker) : Tracker := { t with suspended := true }

def resume (t : Tracker) : Tracker := { t with suspended := false }

/-- The tracker that takes no more events and does no more upkeep. -/
def close (t : Tracker) : Tracker := { t with closed := true }

end Tracker

/-- A tracker and its host. -/
structure World where
  host : Host
  tracker : Tracker

namespace World

/-- Something that a tracker does, which keeps what was done before a failure. -/
abbrev Action (ε α : Type) := ExceptT ε (StateM World) α

/-- Runs an action on the host. -/
def onHost {ε ε' α : Type} (wrap : ε → ε') (a : Host.Action ε α) : Action ε' α := fun w =>
  let (r, host) := a w.host
  (r.mapError wrap, { w with host })

/-- Runs an action on the host's disk. -/
def onDisk {ε ε' α : Type} (wrap : ε → ε') (a : Disk.Action ε α) : Action ε' α :=
  onHost wrap (Host.onDisk a)

/-- Changes the tracker. -/
def update {ε : Type} (f : Tracker → Tracker) : Action ε Unit :=
  modify fun w => { w with tracker := f w.tracker }

end World

end Lineage
