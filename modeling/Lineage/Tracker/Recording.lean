import Lineage.Tracker.Basic

/-!
# Recording compactions

The store tells of each compaction twice. When it begins, what the store knows of the inputs is
kept, and each input gets a second name in the backup directory, under which it outlives the
compaction. When it is over, it becomes a row of the history and edges of the graph.
-/

namespace Lineage.Tracker

open World (onDisk onHost update)

/-! ## Jobs -/

/-- Whether two lists hold the same paths. -/
def samePaths (ps qs : List Path) : Bool :=
  let cs := ps.map Path.components
  let ds := qs.map Path.components
  cs.all (· ∈ ds) && ds.all (· ∈ cs)

/-- Whether a compaction leaves no trace: its family is not tracked, or it changes nothing. -/
def ignores (t : Tracker) (j : Job) : Bool :=
  !t.options.tracks j.family || j.inputs.isEmpty || samePaths j.inputs j.outputs

/-- The live files by their names; of two files of one name the later one counts. -/
def liveByName (files : List LiveFile) : Std.ExtTreeMap String LiveFile :=
  files.foldl (fun m f => f.name?.elim m fun n => m.insert n f) ∅

/-- What a store tells of a file with the given name. -/
def infoOf (live : Std.ExtTreeMap String LiveFile) (name : String) : FileInfo :=
  match live[name]? with
  | none => { name }
  | some f => {
      name
      first := some f.smallest
      last := some f.largest
      family := some f.family
      keys := some f.keys }

/-- The name of the table at a path that is to be one. -/
def nameAt (p : Path) : Except Error String :=
  match SortedTable.nameAt? p with
  | some n => .ok n
  | none => .error (.invalidName p.text)

/-- What a store tells of each of the files. -/
def infosOf (live : LiveFiles) (files : List Path) : Except Error (List FileInfo) := do
  let live := liveByName (← live.mapError .io)
  files.mapM fun p => (nameAt p).map (infoOf live)

/-! ## State -/

/-- Keeps what is known of files of which a compaction begins. -/
def remember (t : Tracker) (infos : List FileInfo) : Tracker :=
  { t with inFlight := infos.foldl (fun m i => m.insert i.name i) t.inFlight }

/-- Forgets what was known of files. -/
def forget (t : Tracker) (names : List String) : Tracker :=
  { t with inFlight := names.foldl (fun m n => m.erase n) t.inFlight }

/-- What was known of a file when the compaction began, or else what is known now. -/
def remembered (t : Tracker) (now : FileInfo) : FileInfo := t.inFlight.getD now.name now

/-- The tracker after a compaction was stored under a key. -/
def recorded (t : Tracker) (c : Compaction) (key : Bytes) : Tracker :=
  let t := { t with graph := t.graph.addCompaction c }.forget c.inputNames
  if t.options.stripValues then t.enqueue key else t

/-- Whether compactions are recorded now: a closed tracker, or one without tables, records none, and
there is nothing to compare before the first snapshot. -/
def recording : World.Action Error Bool := do
  let t := (← get).tracker
  if t.closed || !t.attached then return false
  else return !(← onHost .table Host.noSnapshots)

/-! ## Events -/

/-- Gives a file a name in the backup directory, unless that name is taken. -/
def backUp (p : Path) : World.Action Error Unit := do
  let name ← ofExcept (nameAt p)
  try onDisk .io (Disk.link p ((← get).tracker.backupPath name))
  catch
    | .io e => unless e.kind = .alreadyExists do throw (.io e)
    | e => throw e

def backUpAll : List Path → World.Action Error Unit
  | [] => return ()
  | p :: rest => do
    backUp p
    backUpAll rest

/-- A compaction begins. -/
def beginJob (store : Store) (j : Job) : World.Action Error Unit := do
  if (← get).tracker.ignores j then return ()
  unless ← recording do return ()
  let infos ← ofExcept (infosOf store.live j.inputs)
  update (·.remember infos)
  backUpAll j.inputs

/-- A compaction is over. One without outputs is not recorded. -/
def completeJob (store : Store) (now : UInt64) (j : Job) : World.Action Error Unit := do
  if (← get).tracker.ignores j then return ()
  if j.outputs.isEmpty then
    update (·.forget (j.inputs.filterMap SortedTable.nameAt?))
    return ()
  let inputs ← ofExcept (infosOf store.live j.inputs)
  let outputs ← ofExcept (infosOf store.live j.outputs)
  let c : Compaction :=
    ⟨store.sequence, now, inputs.map (← get).tracker.remembered, outputs, j.reason⟩
  unless ← recording do return ()
  onHost .table (Host.putRow c.key c.encode)
  update (·.recorded c c.key)

end Lineage.Tracker
