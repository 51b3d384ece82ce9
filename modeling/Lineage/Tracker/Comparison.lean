import Lineage.Tracker.Basic

/-!
# Comparing snapshots

The comparison of a later snapshot with an earlier one gives the tables whose keys may differ
between the two. It needs every table of the earlier snapshot to be met on the way back from the
later one; where recorded history does not lead there, the caller has to compare all keys.
-/

namespace Lineage.Tracker

open World (onDisk)

/-- How two snapshots compare. -/
inductive Comparison where
  /-- The tables that may hold a difference, in ascending order. -/
  | incremental (names : List String)
  /-- Recorded history does not explain every table of the earlier snapshot. -/
  | full
  deriving DecidableEq, Repr

/-! ## Live tables -/

/-- The names of a store's tables in the tracked column families and the default one. -/
def liveNames (o : Options) (live : LiveFiles) : Except Error Names := do
  let files := (← live.mapError .io).filter fun f => f.family = defaultFamily ∨ o.tracks f.family
  let names ← files.mapM fun f =>
    match f.name? with
    | some n => .ok n
    | none => .error (.invalidName f.file)
  return .ofList names

/-- What snapshots tell of their tables; of two tables of one name the first one counts. -/
def boundsOf (files : List LiveFile) : Std.ExtTreeMap String LiveFile :=
  files.foldl (fun m f => f.name?.elim m fun n => m.insertIfNew n f) ∅

/-! ## Prefixes -/

/-- Whether keys of a column family between two bounds may begin with the prefix of interest. A
family without prefix is of no interest. -/
def mayContain (prefixes : Std.ExtTreeMap String Bytes) (family : String)
    (first last : Bytes) : Bool :=
  if prefixes.isEmpty then true
  else match prefixes[family]? with
    | none => false
    | some p =>
      (compare (first.take p.length) p).isLE && (compare p (last.take p.length)).isLE

/-- Whether a table may hold keys of interest: by the bounds recorded with it, else by those that a
snapshot tells, and certainly if there are none. -/
def ofInterest (prefixes : Std.ExtTreeMap String Bytes) (g : Graph)
    (bounds : Std.ExtTreeMap String LiveFile) (name : String) : Bool :=
  let byLive := match bounds[name]? with
    | none => true
    | some f => mayContain prefixes f.family f.smallest f.largest
  match g.node? name with
  | none => byLive
  | some n =>
    match n.first, n.last, n.family with
    | some first, some last, some family => mayContain prefixes family first last
    | _, _, _ => byLive

/-! ## Comparison -/

/-- The tables that may differ, given the names of the tables on both sides. -/
def compareNames (g : Graph) (later earlier : Names) (generation : UInt64) (maxLevels : Nat) :
    Except Error Comparison := do
  let c ← (g.classify later earlier generation maxLevels).mapError .levelLimit
  if earlier.toList.all c.mentions then return .incremental c.different.toList else return .full

/-- Keeps the tables that may hold keys of interest. -/
def Comparison.restrict (keep : String → Bool) : Comparison → Comparison
  | .incremental names => .incremental (names.filter keep)
  | .full => .full

/-- Compares a later snapshot with an earlier one. -/
def compareSnapshots (t : Tracker) (later earlier : Snapshot) : Except Error Comparison := do
  let laterNames ← liveNames t.options later.live
  let earlierNames ← liveNames t.options earlier.live
  let result ←
    compareNames t.graph laterNames earlierNames earlier.generation t.options.maxLevels
  if later.prefixes.isEmpty then return result
  let bounds := boundsOf ((← later.live.mapError .io) ++ (← earlier.live.mapError .io))
  return result.restrict (ofInterest later.prefixes t.graph bounds)

/-! ## Materialised files -/

/-- Where a table is to be found: in the backup directory, else in the first of the given ones. -/
def locate (d : Disk) (t : Tracker) (dirs : List Path) (name : String) : Except Error Path :=
  let candidates := t.backupPath name :: dirs.map fun dir => SortedTable.pathIn dir name
  match candidates.find? d.present with
  | some p => .ok p
  | none => .error (.notLocated name)

/-- Gives tables a name in a directory, unless that name is taken. -/
def linkAll (dirs : List Path) (target : Path) : List String → World.Action Error (List Path)
  | [] => return []
  | name :: rest => do
    let w ← get
    let source ← ofExcept (locate w.host.disk w.tracker dirs name)
    let link := SortedTable.pathIn target name
    try onDisk .io (Disk.link source link)
    catch
      | .io e => unless e.kind = .alreadyExists do throw (.io e)
      | e => throw e
    return link :: (← linkAll dirs target rest)

/-- Compares two snapshots and gives the tables that may differ a name in a directory; nothing if
all keys have to be compared. -/
def materialize (later earlier : Snapshot) (target : Path) :
    World.Action Error (Option (List Path)) := do
  match ← ofExcept (compareSnapshots (← get).tracker later earlier) with
  | .full => return none
  | .incremental names =>
    onDisk .io (Disk.makeDirectories target)
    some <$> linkAll [later.dir, earlier.dir] target names

end Lineage.Tracker
