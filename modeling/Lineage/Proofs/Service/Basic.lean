import Mathlib.Logic.Relation
import Lineage.Proofs.Upkeep
import Lineage.Tracker.Comparison

/-!
# Stores under upkeep

A store flushes new files and replaces some of its files by others, snapshots of it keep its files
under names of their own, and a tracker hears of its compactions and does its upkeep in between. A
`Service` is one point of this, and `Step` says what may come next, in whatever order. Every call of
the tracker succeeds; what else happens on the disk touches neither backups nor what a snapshot
keeps.
-/

namespace Lineage

open Tracker

/-- A store, its snapshots and its tracker at one point of a run. -/
structure Service where
  world : World
  /-- The files the store reads from. -/
  live : Names
  /-- All names that files had so far. -/
  used : Names
  /-- The files of which a compaction began. -/
  begun : Names
  /-- The files whose backup was dropped after the last compaction of them began. -/
  dropped : Names
  taken : List Snapshot

namespace Service

def graph (s : Service) : Graph := s.world.tracker.graph

/-- Once a file was flushed. -/
def flush (s : Service) (name : String) : Service :=
  { s with live := s.live.insert name, used := s.used.insert name }

/-- Once a snapshot was listed. -/
def take (s : Service) (sn : Snapshot) (key value : Bytes) : Service :=
  { s with
    world := { s.world with host :=
      { s.world.host with snapshots := s.world.host.snapshots.insert key value } }
    taken := sn :: s.taken }

/-- Once something else happened on the disk. -/
def onDisk (s : Service) (d : Disk) : Service :=
  { s with world := { s.world with host := { s.world.host with disk := d } } }

/-- Once a compaction of some files began. -/
def begin (s : Service) (w : World) (inputs : List String) : Service :=
  { s with
    world := w
    begun := s.begun ∪ .ofList inputs
    dropped := s.dropped.filter (· ∉ inputs) }

/-- Once files were replaced by others. -/
def complete (s : Service) (w : World) (inputs outputs : List String) : Service :=
  { s with
    world := w
    live := s.live.filter (· ∉ inputs) ∪ .ofList outputs
    used := s.used ∪ .ofList outputs }

/-- Once the backups of outputs were dropped. -/
def drop (s : Service) (w : World) : Service :=
  { s with
    world := w
    dropped := if s.world.tracker.active then s.dropped ∪ .ofList s.graph.outputNames
      else s.dropped }

variable {s s' : Service} {w : World} {inputs outputs : List String} {n : String}

@[simp] theorem mem_live_flush {name : String} : n ∈ (s.flush name).live ↔ name = n ∨ n ∈ s.live := by
  rw [flush, Std.ExtTreeSet.mem_insert, Std.compare_eq_iff_eq]

@[simp] theorem mem_used_flush {name : String} : n ∈ (s.flush name).used ↔ name = n ∨ n ∈ s.used := by
  rw [flush, Std.ExtTreeSet.mem_insert, Std.compare_eq_iff_eq]

@[simp] theorem mem_begun_begin : n ∈ (s.begin w inputs).begun ↔ n ∈ s.begun ∨ n ∈ inputs := by
  simp [begin]

@[simp] theorem mem_dropped_begin :
    n ∈ (s.begin w inputs).dropped ↔ n ∈ s.dropped ∧ n ∉ inputs := by
  simp [begin]

@[simp] theorem mem_live_complete :
    n ∈ (s.complete w inputs outputs).live ↔ (n ∈ s.live ∧ n ∉ inputs) ∨ n ∈ outputs := by
  simp [complete]

@[simp] theorem mem_used_complete :
    n ∈ (s.complete w inputs outputs).used ↔ n ∈ s.used ∨ n ∈ outputs := by
  simp [complete]

theorem mem_dropped_drop (h : s.world.tracker.active = true) :
    n ∈ (s.drop w).dropped ↔ n ∈ s.dropped ∨ n ∈ s.graph.outputNames := by
  simp [drop, h]

theorem dropped_drop (h : s.world.tracker.active = false) : (s.drop w).dropped = s.dropped := by
  simp [drop, h]

/-! ## Steps -/

/-- A snapshot tells of some tables, and has each of them in a directory of its own. -/
structure Holds (w : World) (sn : Snapshot) (names : Names) : Prop where
  listed : liveNames w.tracker.options sn.live = .ok names
  apart : sn.dir.spot ≠ w.tracker.backupDir.spot
  linked : ∀ n ∈ names, w.disk.present (SortedTable.pathIn sn.dir n) = true

/-- A disk that differs neither in backups nor in what was in the directories of snapshots. -/
structure Undisturbed (s : Service) (d : Disk) : Prop where
  quiet : d.outage = .quiet
  backups : ∀ n, Unslashed n →
    d.at? (s.world.tracker.backupPath n) = s.world.disk.at? (s.world.tracker.backupPath n)
  linked : ∀ sn ∈ s.taken, ∀ n, s.world.disk.present (SortedTable.pathIn sn.dir n) = true →
    d.present (SortedTable.pathIn sn.dir n) = true

/-- A job of a tracked family replaces files of the store by files that were never there. -/
structure Replaces (s : Service) (j : Job) (inputs outputs : List String) : Prop where
  tracked : s.world.tracker.options.tracks j.family = true
  named_inputs : j.inputs.map SortedTable.nameAt? = inputs.map some
  named_outputs : j.outputs.map SortedTable.nameAt? = outputs.map some
  nonempty : inputs ≠ []
  held : ∀ n ∈ inputs, n ∈ s.live
  new : ∀ n ∈ outputs, n ∉ s.used

/-- What may come next. -/
inductive Step : Service → Service → Prop where
  | flush {s : Service} {name : String} (new : name ∉ s.used) : Step s (s.flush name)
  | take {s : Service} {sn : Snapshot} {key value : Bytes} (holds : Holds s.world sn s.live) :
      Step s (s.take sn key value)
  | outside {s : Service} {d : Disk} (apart : s.Undisturbed d) : Step s (s.onDisk d)
  | begin {s : Service} {store : Store} {j : Job} {inputs outputs : List String} {w : World}
      (replaces : s.Replaces j inputs outputs) (ran : Runs (beginJob store j) s.world (.ok ()) w) :
      Step s (s.begin w inputs)
  | complete {s : Service} {store : Store} {now : UInt64} {j : Job} {inputs outputs : List String}
      {w : World} (replaces : s.Replaces j inputs outputs) (begun : ∀ n ∈ inputs, n ∈ s.begun)
      (fits : ∀ c, s.world.tracker.compactionOf store now j = .ok c → c.Fits)
      (ran : Runs (completeJob store now j) s.world (.ok ()) w) :
      Step s (s.complete w inputs outputs)
  | expire {s : Service} {now : UInt64} {e : Expired} {w : World}
      (ran : Runs (expireHistory now) s.world (.ok e) w) : Step s { s with world := w }
  | drop {s : Service} {k : Nat} {w : World} (ran : Runs dropOutputBackups s.world (.ok k) w) :
      Step s (s.drop w)
  | strip {s : Service} {run : StripRun} {w : World} (ran : Runs stripBackups s.world (.ok run) w) :
      Step s { s with world := w }

/-- Steps one after the other. -/
abbrev Reaches : Service → Service → Prop := Relation.ReflTransGen Step

/-- Tracking starts: the tracker is open, has tables without history, and knows of nothing. There is
a snapshot already, and no directory in the way of a backup. -/
structure Starts (s : Service) : Prop where
  opened : s.world.tracker.closed = false
  attached : s.world.tracker.attached = true
  graph : s.graph = {}
  inFlight : s.world.tracker.inFlight = ∅
  rows : s.world.host.history.rows = ∅
  snapshots : s.world.host.snapshots.isEmpty = false
  quiet : s.world.disk.outage = .quiet
  files : ∀ n, Unslashed n → s.world.disk.at? (s.world.tracker.backupPath n) ≠ some .directory
  live_used : ∀ n ∈ s.live, n ∈ s.used
  begun : s.begun = ∅
  dropped : s.dropped = ∅
  taken : s.taken = []

end Service

end Lineage
