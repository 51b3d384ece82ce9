import Mathlib.Logic.Relation
import Lineage.Proofs.Runs.Basic

/-!
# The graph along a run

`Scene.Tracked` is what every scene of a run satisfies; its ranks bound the chains of the graph by
the number of recorded compactions. `Since` is what holds of a scene reached from an earlier one at
which a snapshot was listed: which of the files that are new since then came out of compactions,
how old their nodes are, and that every file there was or came in has not been lost without trace.
-/

namespace Lineage

variable {s s' : Scene} {e : Event} {es : List Event}

/-! ## Every scene -/

/-- What holds at every scene of a run. -/
structure Scene.Tracked (s : Scene) : Prop where
  ready : s.world.tracker.Ready
  live_used : ∀ n ∈ s.live, n ∈ s.used
  node_used : ∀ n, s.graph.contains n = true → n ∈ s.used
  edge_nodes : ∀ n x, x ∈ s.graph.olderThan n →
    s.graph.contains n = true ∧ s.graph.contains x = true
  ranked : s.graph.Ranked s.recorded

theorem Starts.tracked (h : Starts s) : s.Tracked where
  ready := by
    refine ⟨h.opened, h.attached, fun n i hi => ?_⟩
    rw [h.inFlight] at hi
    simp at hi
  live_used := h.live_used
  node_used n hn := by simp [h.graph, Graph.contains] at hn
  edge_nodes n x hx := by simp [h.graph, Graph.olderThan] at hx
  ranked := ⟨fun _ => 0, fun _ => Nat.zero_le _, fun n x hx => by
    simp [h.graph, Graph.olderThan] at hx⟩

/-- A scene with the same graph and ready tracker, in which no file lost its name. -/
theorem Scene.Tracked.of_graph_eq (h : s.Tracked) (hr : s'.world.tracker.Ready)
    (hg : s'.graph = s.graph) (hn : s'.recorded = s.recorded) (hu : ∀ n ∈ s.used, n ∈ s'.used)
    (hl : ∀ n ∈ s'.live, n ∈ s'.used) : s'.Tracked where
  ready := hr
  live_used := hl
  node_used n hc := hu n (h.node_used n (hg ▸ hc))
  edge_nodes := hg ▸ h.edge_nodes
  ranked := by
    rw [hg, hn]
    exact h.ranked

section
variable {w : World} {inputs outputs : List String} {sequence : UInt64} {c : Compaction}

/-- A recorded compaction gives its outputs a rank of their own. -/
theorem Scene.Tracked.compact (h : s.Tracked) (hr : w.tracker.Ready)
    (hheld : ∀ n ∈ inputs, n ∈ s.live) (hnew : ∀ n ∈ outputs, n ∉ s.used)
    (hcount : (s.compact w inputs outputs sequence).recorded = s.recorded + 1)
    (hin : c.inputNames = inputs) (hout : c.outputNames = outputs)
    (hg : w.tracker.graph = s.graph.addCompaction c) :
    (s.compact w inputs outputs sequence).Tracked := by
  subst hin hout
  have hgraph : (s.compact w c.inputNames c.outputNames sequence).graph =
    s.graph.addCompaction c := hg
  have hused : ∀ n ∈ c.inputNames, n ∈ s.used := fun n hn => h.live_used n (hheld n hn)
  constructor
  · exact hr
  · intro n hn
    rw [Scene.mem_live_compact] at hn
    rw [Scene.mem_used_compact]
    exact hn.imp_left fun hn => h.live_used n hn.1
  · intro n hn
    rw [hgraph, Graph.contains_addCompaction] at hn
    rw [Scene.mem_used_compact]
    rcases hn with hn | hn | hn
    · exact .inl (h.node_used n hn)
    · exact .inr hn
    · exact .inl (hused n hn)
  · intro n x hx
    rw [hgraph, Graph.mem_olderThan_addCompaction] at hx
    rw [hgraph, Graph.contains_addCompaction, Graph.contains_addCompaction]
    rcases hx with hx | ⟨hn, hx, -⟩
    · exact ⟨.inl (h.edge_nodes n x hx).1, .inl (h.edge_nodes n x hx).2⟩
    · exact ⟨.inr (.inl hn), .inr (.inr hx)⟩
  · rw [hgraph, hcount]
    refine h.ranked.addCompaction (fun n hn hx => hnew n hn (hused n hx)) fun n hn m hm => ?_
    exact hnew n hn (h.node_used n (h.edge_nodes m n hm).2)

end

theorem Scene.Tracked.step (h : s.Tracked) (hs : Step s e s') : s'.Tracked := by
  cases hs with
  | flush new later =>
    refine h.of_graph_eq h.ready rfl rfl (fun n hn => ?_) fun n hn => ?_
    · exact Scene.mem_used_flush.mpr (.inr hn)
    · exact Scene.mem_used_flush.mpr ((Scene.mem_live_flush.mp hn).imp_right (h.live_used n))
  | snapshot => exact h.of_graph_eq h.ready rfl rfl (fun _ => id) h.live_used
  | begin ran =>
    obtain ⟨hready, hgraph, -⟩ := h.ready.begin ran
    exact h.of_graph_eq hready hgraph rfl (fun _ => id) h.live_used
  | @complete store now j inputs outputs w tracked hin hout replaces held new later ran =>
    have hdisj : ∀ n ∈ inputs, n ∉ outputs := fun n hn ho => new n ho (h.live_used n (held n hn))
    obtain ⟨hready, -, -, ⟨hnone, hgraph⟩ | ⟨hne, hlisted, c, hcin, hcout, -, hgraph⟩⟩ :=
      h.ready.complete tracked hin hout replaces hdisj ran
    · refine h.of_graph_eq hready hgraph (if_pos hnone) (fun n hn => ?_) fun n hn => ?_
      · exact Scene.mem_used_compact.mpr (.inl hn)
      · exact Scene.mem_used_compact.mpr
          ((Scene.mem_live_compact.mp hn).imp_left fun hn => h.live_used n hn.1)
    · refine h.compact hready held new (if_neg ?_) hcin hcout hgraph
      rw [hlisted]
      simp [hne]

theorem Run.tracked (hr : Run s es s') (h : s.Tracked) : s'.Tracked := by
  induction hr with
  | nil => exact h
  | snoc _ last ih => exact ih.step last

end Lineage
