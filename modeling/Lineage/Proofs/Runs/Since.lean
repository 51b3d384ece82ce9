import Lineage.Proofs.Graph.Classifying
import Lineage.Proofs.Runs.Graph

/-!
# What became of a store since a snapshot

`Since` relates a scene to an earlier one at which a snapshot was listed: which of the files that
are new since then came out of compactions, and how old their nodes are (`replaced`, `generation`);
which files compactions found to replace (`edge_new`); and that no file that was there or came in is
gone without a trace (`covered`). A run preserves it (`Run.since`).
-/

namespace Lineage

open Relation (ReflTransGen)

variable {s₀ s s' : Scene} {e : Event} {es : List Event}

/-- The first file is the second one, or compactions since the earlier scene made it from that. -/
def Scene.Descends (s s₀ : Scene) (m n : String) : Prop :=
  ReflTransGen (fun m x => m ∉ s₀.used ∧ x ∈ s.graph.olderThan m) m n

/-- What holds at a scene that the given events led to from an earlier one. -/
structure Since (s₀ s : Scene) (es : List Event) : Prop where
  listed : s.world.host.snapshots.isEmpty = false
  sequence : s₀.sequence ≤ s.sequence
  used : ∀ n ∈ s₀.used, n ∈ s.used
  kept : ∀ n ∈ s.live, n ∈ s₀.used → n ∈ s₀.live
  edge_mono : ∀ n, ∀ x ∈ s₀.graph.olderThan n, x ∈ s.graph.olderThan n
  edge_old : ∀ n ∈ s₀.used, ∀ x ∈ s.graph.olderThan n, x ∈ s₀.graph.olderThan n
  edge_new : ∀ n, n ∉ s₀.used → ∀ x ∈ s.graph.olderThan n, x ∈ s₀.used → x ∈ s₀.live
  generation : ∀ n m, s.graph.bare? n = some m → n ∉ s₀.used → s₀.sequence ≤ m.generation
  flushed : ∀ n ∈ es.flatMap Event.flushed,
    n ∉ s₀.used ∧ n ∈ s.used ∧ ∀ x, x ∉ s.graph.olderThan n
  replaced : ∀ n ∈ s.used, n ∉ s₀.used → n ∉ es.flatMap Event.flushed →
    ∃ x, x ∈ s.graph.olderThan n
  covered : ∀ n, n ∈ s₀.live ∨ n ∈ es.flatMap Event.flushed →
    ∃ m, (m ∈ s.live ∨ m ∈ es.flatMap Event.lost) ∧ s.Descends s₀ m n

/-- Nothing happened yet. -/
theorem Scene.Tracked.since (h : s.Tracked) (hl : s.world.host.snapshots.isEmpty = false) :
    Since s s [] where
  listed := hl
  sequence := UInt64.le_refl _
  used _ := id
  kept n hn _ := hn
  edge_mono _ _ := id
  edge_old _ _ _ := id
  edge_new n hn x hx := absurd (h.node_used n (h.edge_nodes n x hx).1) hn
  generation n m hm hn := by
    refine absurd (h.node_used n ?_) hn
    rw [Graph.contains_eq_isSome_bare?, hm]
    rfl
  flushed n hn := by simp at hn
  replaced n hn hno := absurd hn hno
  covered n hn := ⟨n, .inl (hn.resolve_right (by simp)), .refl⟩

/-! ## Steps that leave the graph alone -/

/-- Files come in or are lost, and nothing is recorded. -/
theorem Since.of_graph_eq (h : Since s₀ s es) (ht : s.Tracked) (hg : s'.graph = s.graph)
    (hlisted : s'.world.host.snapshots.isEmpty = false) (hseq : s.sequence ≤ s'.sequence)
    (hused : ∀ n, n ∈ s'.used ↔ n ∈ s.used ∨ n ∈ e.flushed) (hnew : ∀ n ∈ e.flushed, n ∉ s.used)
    (hlive : ∀ n ∈ s'.live, n ∈ s.live ∨ n ∈ e.flushed)
    (hkept : ∀ n ∈ s.live, n ∈ s'.live ∨ n ∈ e.lost) (hin : ∀ n ∈ e.flushed, n ∈ s'.live) :
    Since s₀ s' (es ++ [e]) := by
  have hflushed (n : String) : n ∈ (es ++ [e]).flatMap Event.flushed ↔
      n ∈ es.flatMap Event.flushed ∨ n ∈ e.flushed := by simp
  have hlost (n : String) : n ∈ (es ++ [e]).flatMap Event.lost ↔
      n ∈ es.flatMap Event.lost ∨ n ∈ e.lost := by simp
  constructor
  case listed => exact hlisted
  case sequence => exact UInt64.le_trans h.sequence hseq
  case used => exact fun n hn => (hused n).mpr (.inl (h.used n hn))
  case kept =>
    intro n hn hn0
    rcases hlive n hn with hn | hn
    · exact h.kept n hn hn0
    · exact absurd (h.used n hn0) (hnew n hn)
  case edge_mono => exact hg ▸ h.edge_mono
  case edge_old => exact hg ▸ h.edge_old
  case edge_new => exact hg ▸ h.edge_new
  case generation => exact hg ▸ h.generation
  case flushed =>
    intro n hn
    rw [hg]
    rcases (hflushed n).mp hn with hn | hn
    · obtain ⟨hn0, hn, hx⟩ := h.flushed n hn
      exact ⟨hn0, (hused n).mpr (.inl hn), hx⟩
    · refine ⟨fun hn0 => hnew n hn (h.used n hn0), (hused n).mpr (.inr hn), fun x hx => ?_⟩
      exact hnew n hn (ht.node_used n (ht.edge_nodes n x hx).1)
  case replaced =>
    intro n hn hn0 hnf
    rw [hflushed, not_or] at hnf
    rw [hg]
    exact h.replaced n (((hused n).mp hn).resolve_right hnf.2) hn0 hnf.1
  case covered =>
    intro n hn
    rw [hflushed, ← or_assoc] at hn
    simp only [hlost, Scene.Descends, hg]
    rcases hn with hn | hn
    · obtain ⟨m, hm, hmn⟩ := h.covered n hn
      refine ⟨m, ?_, hmn⟩
      rcases hm with hm | hm
      · exact (hkept m hm).imp_right .inr
      · exact .inr (.inl hm)
    · exact ⟨n, .inl (hin n hn), .refl⟩

/-! ## Recorded compactions -/

section
variable {w : World} {c : Compaction} {m n x : String}

/-- A compaction that is recorded adds the edges from its outputs to its inputs. -/
theorem mem_olderThan_compact (hg : w.tracker.graph = s.graph.addCompaction c)
    (hne : ∀ n ∈ c.outputNames, ∀ x ∈ c.inputNames, n ≠ x) :
    x ∈ (s.compact w c.inputNames c.outputNames c.sequence).graph.olderThan n ↔
      x ∈ s.graph.olderThan n ∨ n ∈ c.outputNames ∧ x ∈ c.inputNames := by
  have hgraph : (s.compact w c.inputNames c.outputNames c.sequence).graph =
    s.graph.addCompaction c := hg
  rw [hgraph, Graph.mem_olderThan_addCompaction]
  exact or_congr_right ⟨fun hx => ⟨hx.1, hx.2.1⟩, fun hx => ⟨hx.1, hx.2, hne n hx.1 x hx.2⟩⟩

/-- A file that was made from another one still is when there are more edges. -/
theorem Scene.Descends.mono (h : s.Descends s₀ m n)
    (hedge : ∀ n, ∀ x ∈ s.graph.olderThan n, x ∈ s'.graph.olderThan n) : s'.Descends s₀ m n :=
  h.lift id fun _ _ hx => ⟨hx.1, hedge _ _ hx.2⟩

/-- Where something made from a file is replaced, the outputs are made from the file too. -/
theorem Since.covered_compact (h : Since s₀ s es) (hnew : ∀ n ∈ c.outputNames, n ∉ s.used)
    (houts : c.outputNames ≠ [])
    (hedge : ∀ n x, x ∈ (s.compact w c.inputNames c.outputNames c.sequence).graph.olderThan n ↔
      x ∈ s.graph.olderThan n ∨ n ∈ c.outputNames ∧ x ∈ c.inputNames)
    (hn : n ∈ s₀.live ∨ n ∈ es.flatMap Event.flushed) :
    ∃ m, (m ∈ (s.compact w c.inputNames c.outputNames c.sequence).live ∨
        m ∈ es.flatMap Event.lost) ∧
      (s.compact w c.inputNames c.outputNames c.sequence).Descends s₀ m n := by
  obtain ⟨m, hm, hmn⟩ := h.covered n hn
  replace hmn := hmn.mono fun n x hx => (hedge n x).mpr (.inl hx)
  by_cases hmi : m ∈ c.inputNames
  · obtain ⟨o, ho⟩ := List.exists_mem_of_ne_nil _ houts
    refine ⟨o, .inl (Scene.mem_live_compact.mpr (.inr ho)), .head ⟨fun ho0 => ?_, ?_⟩ hmn⟩
    · exact hnew o ho (h.used o ho0)
    · exact (hedge o m).mpr (.inr ⟨ho, hmi⟩)
  · refine ⟨m, hm.imp_left fun hm => ?_, hmn⟩
    exact Scene.mem_live_compact.mpr (.inl ⟨hm, hmi⟩)

/-- Files are replaced by others, and the tracker records it. -/
theorem Since.compact (h : Since s₀ s es) (ht : s.Tracked) (hf : e.flushed = [])
    (hlisted : w.host.snapshots.isEmpty = false) (hseq : s.sequence ≤ c.sequence)
    (hheld : ∀ n ∈ c.inputNames, n ∈ s.live) (hnew : ∀ n ∈ c.outputNames, n ∉ s.used)
    (hins : c.inputNames ≠ []) (houts : c.outputNames ≠ [])
    (hg : w.tracker.graph = s.graph.addCompaction c) :
    Since s₀ (s.compact w c.inputNames c.outputNames c.sequence) (es ++ [e]) := by
  have hflushed : (es ++ [e]).flatMap Event.flushed = es.flatMap Event.flushed := by simp [hf]
  have hne : ∀ n ∈ c.outputNames, ∀ x ∈ c.inputNames, n ≠ x := by
    rintro n hn _ hx rfl
    exact hnew n hn (ht.live_used n (hheld n hx))
  have hedge (n x : String) := mem_olderThan_compact (n := n) (x := x) hg hne
  constructor
  case listed => exact hlisted
  case sequence => exact UInt64.le_trans h.sequence hseq
  case used => exact fun n hn => Scene.mem_used_compact.mpr (.inl (h.used n hn))
  case kept =>
    intro n hn hn0
    rcases Scene.mem_live_compact.mp hn with hn | hn
    · exact h.kept n hn.1 hn0
    · exact absurd (h.used n hn0) (hnew n hn)
  case edge_mono => exact fun n x hx => (hedge n x).mpr (.inl (h.edge_mono n x hx))
  case edge_old =>
    intro n hn0 x hx
    rcases (hedge n x).mp hx with hx | ⟨hn, -⟩
    · exact h.edge_old n hn0 x hx
    · exact absurd (h.used n hn0) (hnew n hn)
  case edge_new =>
    intro n hn0 x hx hx0
    rcases (hedge n x).mp hx with hx | ⟨-, hx⟩
    · exact h.edge_new n hn0 x hx hx0
    · exact h.kept x (hheld x hx) hx0
  case generation =>
    intro n m hm hn0
    rw [show (s.compact w c.inputNames c.outputNames c.sequence).graph = _ from hg] at hm
    rcases Graph.generation_of_bare?_addCompaction hm with hm | hm
    · exact h.generation n m hm hn0
    · rw [hm]
      exact UInt64.le_trans h.sequence hseq
  case flushed =>
    intro n hn
    rw [hflushed] at hn
    obtain ⟨hn0, hn, hx⟩ := h.flushed n hn
    refine ⟨hn0, Scene.mem_used_compact.mpr (.inl hn), fun x hxn => ?_⟩
    rcases (hedge n x).mp hxn with hxn | ⟨hno, -⟩
    · exact hx x hxn
    · exact hnew n hno hn
  case replaced =>
    intro n hn hn0 hnf
    rw [hflushed] at hnf
    rcases Scene.mem_used_compact.mp hn with hn | hn
    · obtain ⟨x, hx⟩ := h.replaced n hn hn0 hnf
      exact ⟨x, (hedge n x).mpr (.inl hx)⟩
    · obtain ⟨x, hx⟩ := List.exists_mem_of_ne_nil _ hins
      exact ⟨x, (hedge n x).mpr (.inr ⟨hn, hx⟩)⟩
  case covered =>
    intro n hn
    rw [hflushed] at hn
    obtain ⟨m, hm, hmn⟩ := h.covered_compact hnew houts hedge hn
    exact ⟨m, hm.imp_right fun hm => by simp [hm], hmn⟩

end

/-! ## Runs -/

/-- A job without outputs loses its inputs. -/
theorem lost_complete {store : Store} {now : UInt64} {j : Job} {inputs : List String}
    (hin : j.inputs.map SortedTable.nameAt? = inputs.map some)
    (hout : j.outputs.map SortedTable.nameAt? = [].map some) :
    Event.lost (.complete store now j) = inputs := by
  have hnil : j.outputs = [] := List.map_eq_nil_iff.mp hout
  have hid : j.inputs.filterMap SortedTable.nameAt? =
      (j.inputs.map SortedTable.nameAt?).filterMap id := by
    rw [List.filterMap_map, Function.id_comp]
  rw [Event.lost, hnil, if_pos List.isEmpty_nil, hid, hin, List.filterMap_map, Function.id_comp]
  exact List.filterMap_some

theorem Since.step (h : Since s₀ s es) (ht : s.Tracked) (hs : Step s e s') :
    Since s₀ s' (es ++ [e]) := by
  cases hs with
  | flush new later =>
    refine h.of_graph_eq ht rfl h.listed later (fun n => ?_) ?_ (fun n => ?_) (fun n => ?_) ?_
    · simp [Event.flushed, or_comm, eq_comm]
    · simpa [Event.flushed] using new
    · simp [Event.flushed, or_comm, eq_comm]
    · exact fun hn => .inl (Scene.mem_live_flush.mpr (.inr hn))
    · simp [Event.flushed]
  | @snapshot key value =>
    refine h.of_graph_eq ht rfl ?_ (UInt64.le_refl _) ?_ ?_ ?_ ?_ ?_
    · simp [Scene.list]
    all_goals simp [Event.flushed, Scene.list] <;> grind
  | begin ran =>
    obtain ⟨-, hgraph, -⟩ := ht.ready.begin ran
    refine h.of_graph_eq ht hgraph ?_ (UInt64.le_refl _) ?_ ?_ ?_ ?_ ?_
    · rw [(Tracker.runs_beginJob ran).2.2]
      exact h.listed
    all_goals simp [Event.flushed] <;> grind
  | @complete store now j inputs outputs w tracked hin hout replaces held new later ran =>
    have hdisj : ∀ n ∈ inputs, n ∉ outputs := fun n hn ho => new n ho (ht.live_used n (held n hn))
    obtain ⟨-, -, hsnap, ⟨hnone, hgraph⟩ | ⟨hne, -, c, hcin, hcout, hcseq, hgraph⟩⟩ :=
      ht.ready.complete tracked hin hout replaces hdisj ran
    · have hnil : outputs = [] := hnone.resolve_right (by simp [h.listed])
      subst hnil
      have hlost : Event.lost (.complete store now j) = inputs := lost_complete hin hout
      refine h.of_graph_eq ht hgraph ?_ later ?_ ?_ ?_ ?_ ?_
      · exact hsnap ▸ h.listed
      all_goals simp [Event.flushed, hlost] <;> grind
    · rw [← hcseq] at later ⊢
      subst hcin hcout
      exact h.compact ht rfl (hsnap ▸ h.listed) later held new replaces hne hgraph

theorem Run.since (hr : Run s es s') (h : s.Tracked)
    (hl : s.world.host.snapshots.isEmpty = false) : Since s s' es := by
  induction hr with
  | nil => exact h.since hl
  | snoc before last ih => exact ih.step (before.tracked h) last

end Lineage
