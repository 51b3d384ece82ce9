import Lineage.Proofs.Recording
import Lineage.Tracker.Comparison

/-!
# Runs of a tracked store

A store flushes new files, replaces some of its files by others, and is seen by snapshots, while a
tracker hears of its compactions. A `Scene` is one point of such a run; `Step` says what the store
and the tracker do next. The store gives each file a name of its own, and its sequence number never
falls; nothing else is asked of it.
-/

namespace Lineage

open Tracker (beginJob completeJob)

/-! ## Scenes -/

/-- A store and its tracker at one point of a run. -/
structure Scene where
  world : World
  /-- The files the store reads from. -/
  live : Names
  /-- All names that files had so far. -/
  used : Names
  /-- The store's sequence number. -/
  sequence : UInt64
  /-- How many compactions the tracker recorded. -/
  recorded : Nat

namespace Scene

def graph (s : Scene) : Graph := s.world.tracker.graph

/-- The scene once a file was flushed. -/
def flush (s : Scene) (name : String) (sequence : UInt64) : Scene :=
  { s with
    live := s.live.insert name
    used := s.used.insert name
    sequence := sequence }

/-- The scene once a snapshot was listed. -/
def list (s : Scene) (key value : Bytes) : Scene :=
  { s with world := { s.world with host :=
      { s.world.host with snapshots := s.world.host.snapshots.insert key value } } }

/-- The scene once files were replaced by others. -/
def compact (s : Scene) (w : World) (inputs outputs : List String) (sequence : UInt64) : Scene where
  world := w
  live := s.live.filter (· ∉ inputs) ∪ .ofList outputs
  used := s.used ∪ .ofList outputs
  sequence := sequence
  recorded := if outputs = [] ∨ s.world.host.snapshots.isEmpty then s.recorded else s.recorded + 1

variable {s : Scene} {n : String}

@[simp] theorem mem_live_flush {name : String} {sequence : UInt64} :
    n ∈ (s.flush name sequence).live ↔ name = n ∨ n ∈ s.live := by
  rw [flush, Std.ExtTreeSet.mem_insert, Std.compare_eq_iff_eq]

@[simp] theorem mem_used_flush {name : String} {sequence : UInt64} :
    n ∈ (s.flush name sequence).used ↔ name = n ∨ n ∈ s.used := by
  rw [flush, Std.ExtTreeSet.mem_insert, Std.compare_eq_iff_eq]

@[simp] theorem mem_live_compact {w : World} {inputs outputs : List String} {sequence : UInt64} :
    n ∈ (s.compact w inputs outputs sequence).live ↔ (n ∈ s.live ∧ n ∉ inputs) ∨ n ∈ outputs := by
  simp [compact]

@[simp] theorem mem_used_compact {w : World} {inputs outputs : List String} {sequence : UInt64} :
    n ∈ (s.compact w inputs outputs sequence).used ↔ n ∈ s.used ∨ n ∈ outputs := by
  simp [compact]

end Scene

/-! ## Steps -/

/-- What happens to a tracked store. -/
inductive Event where
  | flush (name : String) (sequence : UInt64)
  | snapshot (key value : Bytes)
  | begin (store : Store) (job : Job)
  | complete (store : Store) (now : UInt64) (job : Job)

namespace Event

/-- The files that are new in the store and came out of no compaction. -/
def flushed : Event → List String
  | .flush name _ => [name]
  | _ => []

/-- The files that a job replaced by nothing. -/
def lost : Event → List String
  | .complete _ _ j => if j.outputs.isEmpty then j.inputs.filterMap SortedTable.nameAt? else []
  | _ => []

end Event

/-- What an event makes of a scene. Files have names that were never used before; a compaction that
is over replaced files of the store, of a column family that is tracked, and the tracker succeeds in
recording it, if it records anything at all. -/
inductive Step : Scene → Event → Scene → Prop where
  | flush {s : Scene} {name : String} {sequence : UInt64} (new : name ∉ s.used)
      (later : s.sequence ≤ sequence) : Step s (.flush name sequence) (s.flush name sequence)
  | snapshot {s : Scene} {key value : Bytes} : Step s (.snapshot key value) (s.list key value)
  | begin {s : Scene} {store : Store} {j : Job} {r : Except Tracker.Error Unit} {w : World}
      (ran : Runs (beginJob store j) s.world r w) : Step s (.begin store j) { s with world := w }
  | complete {s : Scene} {store : Store} {now : UInt64} {j : Job} {inputs outputs : List String}
      {w : World} (tracked : s.world.tracker.options.tracks j.family = true)
      (named_inputs : j.inputs.map SortedTable.nameAt? = inputs.map some)
      (named_outputs : j.outputs.map SortedTable.nameAt? = outputs.map some)
      (replaces : inputs ≠ []) (held : ∀ n ∈ inputs, n ∈ s.live) (new : ∀ n ∈ outputs, n ∉ s.used)
      (later : s.sequence ≤ store.sequence)
      (ran : Runs (completeJob store now j) s.world (.ok ()) w) :
      Step s (.complete store now j) (s.compact w inputs outputs store.sequence)

/-- Events one after the other. -/
inductive Run : Scene → List Event → Scene → Prop where
  | nil {s : Scene} : Run s [] s
  | snoc {s s₁ s' : Scene} {es : List Event} {e : Event} (before : Run s es s₁)
      (last : Step s₁ e s') : Run s (es ++ [e]) s'

theorem Run.append {s s₁ s' : Scene} {es es' : List Event} (h : Run s es s₁)
    (h' : Run s₁ es' s') : Run s (es ++ es') s' := by
  induction h' with
  | nil => rwa [List.append_nil]
  | snoc _ last ih =>
    rw [← List.append_assoc]
    exact .snoc ih last

/-- Tracking starts: the tracker is open, has tables, and knows of nothing. -/
structure Starts (s : Scene) : Prop where
  opened : s.world.tracker.closed = false
  attached : s.world.tracker.attached = true
  graph : s.graph = {}
  inFlight : s.world.tracker.inFlight = ∅
  live_used : ∀ n ∈ s.live, n ∈ s.used
  recorded : s.recorded = 0

/-- A store with some files whose tracking begins. -/
def Scene.opening (files : List String) : Scene where
  world := { host := {}, tracker := Sample.tracker }
  live := .ofList files
  used := .ofList files
  sequence := 1
  recorded := 0

theorem Scene.starts_opening {files : List String} : Starts (opening files) where
  opened := rfl
  attached := rfl
  graph := rfl
  inFlight := rfl
  live_used _ := id
  recorded := rfl

/-! ## Snapshots -/

/-- A snapshot shows a scene at which it is listed: its sequence number, and the files of the store,
all of tracked column families. -/
structure Shows (o : Options) (sn : Snapshot) (s : Scene) : Prop where
  listed : s.world.host.snapshots.isEmpty = false
  generation : sn.generation = s.sequence
  live : ∃ files, sn.live = .ok files ∧ (∀ f ∈ files, o.tracks f.family = true) ∧
    (∀ f ∈ files, ∃ n ∈ s.live, f.name? = some n) ∧ ∀ n ∈ s.live, ∃ f ∈ files, f.name? = some n

theorem mapM_eq_ok {ε α β : Type} {f : α → Except ε β} {g : α → β} {l : List α}
    (h : ∀ x ∈ l, f x = .ok (g x)) : l.mapM f = .ok (l.map g) := by
  induction l with
  | nil => rfl
  | cons x rest ih =>
    rw [List.forall_mem_cons] at h
    rw [List.mapM_cons, h.1, ih h.2]
    rfl

/-- A comparison takes the files of the store from a snapshot. -/
theorem Shows.liveNames {o : Options} {sn : Snapshot} {s : Scene} (h : Shows o sn s) :
    Tracker.liveNames o sn.live = .ok s.live := by
  obtain ⟨files, hlive, htracks, hname, hall⟩ := h.live
  have hfilter : files.filter (fun f => f.family = defaultFamily ∨ o.tracks f.family) = files :=
    List.filter_eq_self.mpr fun f hf => by simp [htracks f hf]
  have hof : Std.ExtTreeSet.ofList (files.map fun f => f.name?.getD "") = s.live := by
    refine Std.ExtTreeSet.ext_mem fun n => ?_
    rw [Std.ExtTreeSet.mem_ofList, List.contains_iff_mem, List.mem_map]
    constructor
    · rintro ⟨f, hf, rfl⟩
      obtain ⟨n, hn, hfn⟩ := hname f hf
      rwa [hfn]
    · intro hn
      obtain ⟨f, hf, hfn⟩ := hall n hn
      exact ⟨f, hf, by rw [hfn]; rfl⟩
  rw [Tracker.liveNames, hlive]
  refine except_bind_eq_ok.mpr ⟨files, rfl, ?_⟩
  rw [hfilter]
  refine except_bind_eq_ok.mpr ⟨_, mapM_eq_ok (g := fun f => f.name?.getD "") fun f hf => ?_,
    congrArg Except.ok hof⟩
  obtain ⟨n, -, hn⟩ := hname f hf
  rw [hn]
  rfl

end Lineage
