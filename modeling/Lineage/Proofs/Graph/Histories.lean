import Mathlib.Data.List.Induction
import Lineage.Proofs.Graph.Orders
import Lineage.Proofs.Graph.WellFormed

/-!
# Graphs with a history

A graph begins empty; compactions are added to it and files expire, in any order and with whatever
arguments. It is well-formed all the time, and so is every graph in between while the expired files
are removed one by one. Each of its nodes is as a compaction made it and has been there ever since;
and as long as no files expire, the edges are just those that compactions called for
(`wellFormed_after`).
-/

namespace Lineage.Graph

/-- A change to a graph. -/
inductive Change where
  | add (inputs outputs : List FileInfo) (generation : UInt64)
  | expire (start : List String)

def Change.applyTo (g : Graph) : Change → Graph
  | .add inputs outputs generation => g.add inputs outputs generation
  | .expire start => (g.expire start).2

/-- What the empty graph is after some changes. -/
def after (cs : List Change) : Graph := cs.foldl Change.applyTo {}

variable {g : Graph} {cs : List Change} {c : Change} {m : GraphNode} {n x : String}

theorem after_concat : after (cs ++ [c]) = c.applyTo (after cs) := by
  rw [after, List.foldl_append]
  rfl

theorem WellFormed.applyTo (h : WellFormed g) : WellFormed (c.applyTo g) := by
  cases c with
  | add inputs outputs generation => exact h.add
  | expire start => exact h.without

theorem wellFormed_changes (cs : List Change) : WellFormed (after cs) :=
  List.foldlRecOn _ _ wellFormed_empty fun _ hg _ _ => hg.applyTo

/-! ## Where nodes come from -/

/-- A file has the node that a change gave it when it had none, and has had it ever since. -/
def Lasts (cs : List Change) (n : String) (m : GraphNode) : Prop :=
  ∃ before inputs outputs generation rest i,
    cs = before ++ .add inputs outputs generation :: rest ∧
    (after before).contains n = false ∧
    (outputs ++ inputs).find? (·.name = n) = some i ∧
    m = (GraphNode.ofInfo i generation).bare ∧
    ∀ more, more <+: rest →
      (after (before ++ .add inputs outputs generation :: more)).bare? n = some m

/-- A change leaves a node as it is, or makes it. -/
theorem bare?_applyTo (h : (c.applyTo g).bare? n = some m) :
    g.bare? n = some m ∨ g.contains n = false ∧ ∃ inputs outputs generation i,
      c = .add inputs outputs generation ∧ (outputs ++ inputs).find? (·.name = n) = some i ∧
      m = (GraphNode.ofInfo i generation).bare := by
  cases c with
  | add inputs outputs generation =>
    rw [Change.applyTo, bare?_add] at h
    cases hg : g.bare? n with
    | some old => exact .inl (by rwa [hg, Option.some_or] at h)
    | none =>
      rw [hg, Option.none_or, Option.map_eq_some_iff] at h
      obtain ⟨i, hi, rfl⟩ := h
      refine .inr ⟨?_, inputs, outputs, generation, i, rfl, hi, rfl⟩
      rw [contains_eq_isSome_bare?, hg, Option.isSome_none]
  | expire start =>
    rw [Change.applyTo, expire, bare?, node?_without] at h
    split at h
    · cases h
    · exact .inl h

theorem lasts_after (h : (after cs).bare? n = some m) : Lasts cs n m := by
  induction cs using List.reverseRecOn generalizing m with
  | nil => simp [after, bare?, node?] at h
  | append_singleton cs c ih =>
    rw [after_concat] at h
    rcases bare?_applyTo h with hold | ⟨hnot, inputs, outputs, generation, i, rfl, hi, hm⟩
    · obtain ⟨before, inputs, outputs, generation, rest, i, rfl, hnot, hi, hm, hrest⟩ := ih hold
      refine ⟨before, inputs, outputs, generation, rest ++ [c], i, ?_, hnot, hi, hm, ?_⟩
      · rw [List.append_assoc, List.cons_append]
      · intro more hmore
        rcases List.prefix_concat_iff.mp hmore with rfl | hmore
        · rwa [← List.cons_append, ← List.append_assoc, after_concat]
        · exact hrest more hmore
    · refine ⟨cs, inputs, outputs, generation, [], i, rfl, hnot, hi, hm, fun more hmore => ?_⟩
      rw [List.prefix_nil.mp hmore, after_concat]
      exact h

/-! ## Where edges come from -/

theorem mem_olderThan_after (h : ∀ start, .expire start ∉ cs) :
    x ∈ (after cs).olderThan n ↔ n ≠ x ∧ ∃ inputs outputs generation,
      .add inputs outputs generation ∈ cs ∧ (∃ o ∈ outputs, o.name = n) ∧
      ∃ i ∈ inputs, i.name = x := by
  induction cs using List.reverseRecOn with
  | nil =>
    refine iff_of_false Std.ExtTreeSet.not_mem_empty fun ⟨_, _, _, _, hadd, _⟩ => ?_
    exact absurd hadd List.not_mem_nil
  | append_singleton cs c ih =>
    have hcs : ∀ start, .expire start ∉ cs := fun start hs => h start (List.mem_append_left _ hs)
    cases c with
    | expire start => exact absurd (List.mem_append_right _ (List.mem_singleton_self _)) (h start)
    | add inputs outputs generation =>
      rw [after_concat, Change.applyTo, mem_olderThan_add, ih hcs]
      simp only [List.mem_append, List.mem_singleton, Change.add.injEq]
      grind

/-! ## After any changes -/

theorem wellFormed_after (cs : List Change) :
    WellFormed (after cs) ∧
    ((after cs).outputNames.Nodup ∧
      ∀ n, n ∈ (after cs).outputNames ↔ ∃ x, x ∈ (after cs).olderThan n) ∧
    (∀ n m, (after cs).node? n = some m → Lasts cs n m.bare) ∧
    ((∀ start, .expire start ∉ cs) → ∀ n x, x ∈ (after cs).olderThan n ↔
      n ≠ x ∧ ∃ inputs outputs generation, .add inputs outputs generation ∈ cs ∧
        (∃ o ∈ outputs, o.name = n) ∧ ∃ i ∈ inputs, i.name = x) ∧
    ∀ start l, Enumerates l ((after cs).expiring start) →
      (∀ done, done <+: l → WellFormed (done.foldl remove (after cs))) ∧
      l.foldl remove (after cs) = ((after cs).expire start).2 := by
  have hw : WellFormed (after cs) := wellFormed_changes cs
  refine ⟨hw, ⟨?_, fun n => mem_outputNames⟩, fun n m hm => ?_, fun h n x => mem_olderThan_after h,
    fun start l hl => ⟨fun done _ => ?_, ?_⟩⟩
  · exact Std.ExtTreeMap.nodup_keys.filter _
  · apply lasts_after
    rw [bare?, hm, Option.map_some]
  · rw [hw.foldl_remove]
    exact hw.without
  · have hnames : Std.ExtTreeSet.ofList l = (after cs).expiring start := by
      refine Std.ExtTreeSet.ext_mem fun n => ?_
      rw [Std.ExtTreeSet.mem_ofList, List.contains_iff_mem, hl.mem_iff]
    rw [hw.foldl_remove, hnames]
    rfl

end Lineage.Graph

namespace Lineage.Sample

open Lineage.Graph

/-- The files `a` and `c` each came from the other, and `b` from itself and `a`. -/
def cyclic : List Change :=
  [.add [{ name := "a" }, { name := "b" }] [{ name := "b" }, { name := "c" }, { name := "c" }] 1,
    .add [{ name := "c" }] [{ name := "a" }] 2,
    .add [{ name := "b" }] [{ name := "d" }] 3]

/-- When `a` expires, `c` goes too, but `d` leads to `b`. -/
theorem wellFormed_after_cyclic :
    "a" ∈ (after cyclic).olderThan "b" ∧ "b" ∉ (after cyclic).olderThan "b" ∧
    Enumerates ["c", "a"] ((after cyclic).expiring ["a", "k"]) ∧
    WellFormed (["c"].foldl remove (after cyclic)) ∧
    ["c", "a"].foldl remove (after cyclic) = ((after cyclic).expire ["a", "k"]).2 ∧
    (after (cyclic ++ [.expire ["a", "k"]])).edges = [("d", "b")] := by
  obtain ⟨-, -, -, hedges, hremove⟩ := wellFormed_after cyclic
  have hedges := hedges (by simp [cyclic])
  have hl : Enumerates ["c", "a"] ((after cyclic).expiring ["a", "k"]) := by decide +kernel
  obtain ⟨hpart, hall⟩ := hremove ["a", "k"] ["c", "a"] hl
  refine ⟨(hedges "b" "a").mpr ⟨by decide, ?_⟩, fun hb => ((hedges "b" "b").mp hb).1 rfl, hl,
    hpart ["c"] (by decide), hall, by decide +kernel⟩
  exact ⟨_, _, _, List.mem_cons_self, ⟨_, List.mem_cons_self, rfl⟩, _, List.mem_cons_self, rfl⟩

end Lineage.Sample
