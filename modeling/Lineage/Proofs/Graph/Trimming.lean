import Mathlib.Data.List.Induction
import Lineage.Proofs.Graph.Alike
import Lineage.Proofs.Graph.Expiring

/-!
# Graphs whose early history is gone

Compactions are recorded whose outputs are new files and whose inputs no other one consumes
(`Lineal`), and now and then the earliest of those that are left expire. The graph then has just the
edges of the compactions that are left, and the files they made are as old as they are (`Trimmed`),
while files that the others made, and ages that they gave, may stay. So a walk cannot tell it from
the graph that is made of the compactions left alone (`Trimmed.alike`). When the first compactions
expire all at once, their inputs go and the edges of the others are left
(`expire_foldl_addCompaction`).
-/

namespace Lineage.Graph

variable {g g' : Graph} {cs gone gone' left expired : List Compaction} {c : Compaction}
  {n x : String}

/-- Every output is a new file, and no file is consumed twice. -/
structure Lineal (cs : List Compaction) : Prop where
  own : ∀ c ∈ cs, ∀ n ∈ c.outputNames, n ∉ c.inputNames
  new : cs.Pairwise fun a b => ∀ n ∈ b.outputNames, n ∉ a.outputNames ∧ n ∉ a.inputNames
  once : cs.Pairwise fun a b => ∀ n ∈ a.inputNames, n ∉ b.inputNames

theorem Lineal.sublist {cs' : List Compaction} (h : Lineal cs) (hs : cs'.Sublist cs) :
    Lineal cs' where
  own c hc := h.own c (hs.subset hc)
  new := h.new.sublist hs
  once := h.once.sublist hs

/-- The graph of compactions of which the first ones are gone. -/
structure Trimmed (g : Graph) (gone left : List Compaction) : Prop where
  edges : ∀ n x, x ∈ g.olderThan n ↔ ∃ c ∈ left, n ∈ c.outputNames ∧ x ∈ c.inputNames
  mirrored : g.Mirrored
  inputs : ∀ c ∈ left, ∀ n ∈ c.inputNames, g.contains n = true
  generation : ∀ c ∈ left, ∀ n ∈ c.outputNames,
    (g.node? n).map GraphNode.generation = some c.sequence
  named : ∀ n, g.contains n = true → ∃ c ∈ gone ++ left, n ∈ c.outputNames ∨ n ∈ c.inputNames

theorem trimmed_empty : Trimmed {} [] [] where
  edges n x := by
    refine iff_of_false Std.ExtTreeSet.not_mem_empty fun ⟨_, hc, _⟩ => ?_
    exact absurd hc List.not_mem_nil
  mirrored := mirrored_empty
  inputs := nofun
  generation := nofun
  named n hn := by
    rw [contains, Std.ExtTreeMap.contains_empty] at hn
    cases hn

theorem map_generation_bare? : (g.bare? n).map GraphNode.generation =
    (g.node? n).map GraphNode.generation := by
  rw [bare?, Option.map_map]
  rfl

/-! ## Recording -/

/-- A file that is there stays as old as it is. -/
theorem map_generation_addCompaction {generation : UInt64}
    (h : (g.node? n).map GraphNode.generation = some generation) :
    ((g.addCompaction c).node? n).map GraphNode.generation = some generation := by
  rw [← map_generation_bare?] at h ⊢
  obtain ⟨m, hm, hgen⟩ := Option.map_eq_some_iff.mp h
  rw [Graph.addCompaction, bare?_add, hm, Option.some_or, Option.map_some, hgen]

/-- A file that a compaction makes is as old as the compaction, if it was not there. -/
theorem map_generation_addCompaction_output (hn : n ∈ c.outputNames)
    (hnot : g.contains n = false) :
    ((g.addCompaction c).node? n).map GraphNode.generation = some c.sequence := by
  have hnone : g.bare? n = none := by
    rw [contains_eq_isSome_bare?, Option.isSome_eq_false_iff] at hnot
    exact Option.isNone_iff_eq_none.mp hnot
  have hsome : (g.addCompaction c).contains n = true :=
    contains_addCompaction.mpr (.inr (.inl hn))
  rw [contains_eq_isSome_bare?] at hsome
  obtain ⟨m, hm⟩ := Option.isSome_iff_exists.mp hsome
  rw [← map_generation_bare?, hm, Option.map_some]
  rcases generation_of_bare?_addCompaction hm with hold | hgen
  · rw [hnone] at hold
    cases hold
  · rw [hgen]

/-- What a compaction makes was not named before. -/
theorem Trimmed.not_contains (h : Trimmed g gone left) (hl : Lineal (gone ++ (left ++ [c])))
    (hn : n ∈ c.outputNames) : g.contains n = false := by
  rw [← List.append_assoc] at hl
  obtain ⟨-, -, hnew⟩ := List.pairwise_append.mp hl.new
  rw [Bool.eq_false_iff]
  intro hc
  obtain ⟨a, ha, hna⟩ := h.named n hc
  obtain ⟨hout, hin⟩ := hnew a ha c (List.mem_singleton_self c) n hn
  exact hna.elim hout hin

theorem Trimmed.addCompaction (h : Trimmed g gone left) (hl : Lineal (gone ++ (left ++ [c]))) :
    Trimmed (g.addCompaction c) gone (left ++ [c]) where
  edges n x := by
    have hne : n ∈ c.outputNames → x ∈ c.inputNames → n ≠ x := by
      intro hn hx he
      subst he
      exact hl.own c (by simp) n hn hx
    rw [mem_olderThan_addCompaction, h.edges]
    simp only [List.mem_append, List.mem_singleton, or_and_right, exists_or, exists_eq_left]
    grind
  mirrored := h.mirrored.add
  inputs a ha n hn := by
    rw [contains_addCompaction]
    rcases List.mem_append.mp ha with ha | ha
    · exact .inl (h.inputs a ha n hn)
    · rw [List.mem_singleton.mp ha] at hn
      exact .inr (.inr hn)
  generation a ha n hn := by
    rcases List.mem_append.mp ha with ha | ha
    · exact map_generation_addCompaction (h.generation a ha n hn)
    · rw [List.mem_singleton.mp ha] at hn ⊢
      exact map_generation_addCompaction_output hn (h.not_contains hl hn)
  named n hn := by
    rw [contains_addCompaction] at hn
    rcases hn with hn | hn
    · obtain ⟨a, ha, hna⟩ := h.named n hn
      refine ⟨a, ?_, hna⟩
      rw [← List.append_assoc]
      exact List.mem_append_left _ ha
    · exact ⟨c, by simp, hn⟩

theorem trimmed_foldl (hl : Lineal cs) : Trimmed (cs.foldl Graph.addCompaction {}) [] cs := by
  induction cs using List.reverseRecOn with
  | nil => exact trimmed_empty
  | append_singleton cs c ih =>
    rw [List.foldl_append]
    exact (ih (hl.sublist (List.sublist_append_left cs [c]))).addCompaction hl

/-! ## Expiry -/

/-- What goes when the first compactions expire are their inputs. -/
theorem Trimmed.mem_expiring (h : Trimmed g gone (expired ++ left))
    (hl : Lineal (gone ++ (expired ++ left))) :
    n ∈ g.expiring (expired.flatMap Compaction.inputNames) ↔ ∃ c ∈ expired, n ∈ c.inputNames := by
  obtain ⟨-, hnew, -⟩ := List.pairwise_append.mp hl.new
  obtain ⟨-, -, hcross⟩ := List.pairwise_append.mp hnew
  constructor
  · -- A file that an expired compaction consumed was made, if at all, by an expired one.
    refine expiring_closed (P := fun m => ∃ c ∈ expired, m ∈ c.inputNames) ?_ ?_
    · intro m hm x hx
      obtain ⟨c, hc, hmc⟩ := hm
      obtain ⟨a, ha, hma, hxa⟩ := (h.edges m x).mp hx
      rcases List.mem_append.mp ha with ha | ha
      · exact ⟨a, ha, hxa⟩
      · exact absurd hmc (hcross c hc a ha m hma).2
    · intro m hm
      exact List.mem_flatMap.mp hm
  · rintro ⟨c, hc, hn⟩
    apply mem_expiring_of_mem
    · exact List.mem_flatMap.mpr ⟨c, hc, hn⟩
    · exact h.inputs c (List.mem_append_left _ hc) n hn

/-- What a compaction that is left made or consumed stays. -/
theorem Trimmed.not_mem_expiring (h : Trimmed g gone (expired ++ left))
    (hl : Lineal (gone ++ (expired ++ left))) (hc : c ∈ left)
    (hn : n ∈ c.outputNames ∨ n ∈ c.inputNames) :
    n ∉ g.expiring (expired.flatMap Compaction.inputNames) := by
  obtain ⟨-, hnew, -⟩ := List.pairwise_append.mp hl.new
  obtain ⟨-, -, hfresh⟩ := List.pairwise_append.mp hnew
  obtain ⟨-, honce, -⟩ := List.pairwise_append.mp hl.once
  obtain ⟨-, -, hsingle⟩ := List.pairwise_append.mp honce
  rw [h.mem_expiring hl]
  rintro ⟨a, ha, hna⟩
  rcases hn with hn | hn
  · exact (hfresh a ha c hc n hn).2 hna
  · exact hsingle a ha c hc n hna hn

/-- The first of the compactions left expire. -/
theorem Trimmed.expire (h : Trimmed g gone (expired ++ left))
    (hl : Lineal (gone ++ (expired ++ left))) :
    Trimmed (g.without (g.expiring (expired.flatMap Compaction.inputNames))) (gone ++ expired)
      left where
  edges n x := by
    rw [mem_olderThan_without, h.edges]
    constructor
    · rintro ⟨⟨a, ha, hn, hx⟩, -, hgone⟩
      rcases List.mem_append.mp ha with ha | ha
      · exact absurd ((h.mem_expiring hl).mpr ⟨a, ha, hx⟩) hgone
      · exact ⟨a, ha, hn, hx⟩
    · rintro ⟨a, ha, hn, hx⟩
      exact ⟨⟨a, List.mem_append_right _ ha, hn, hx⟩, h.not_mem_expiring hl ha (.inl hn),
        h.not_mem_expiring hl ha (.inr hx)⟩
  mirrored := h.mirrored.without
  inputs a ha n hn := by
    rw [contains_eq_isSome_node?, node?_without, if_neg (h.not_mem_expiring hl ha (.inr hn)),
      ← contains_eq_isSome_node?]
    exact h.inputs a (List.mem_append_right _ ha) n hn
  generation a ha n hn := by
    rw [node?_without, if_neg (h.not_mem_expiring hl ha (.inl hn))]
    exact h.generation a (List.mem_append_right _ ha) n hn
  named n hn := by
    rw [contains_eq_isSome_node?, node?_without] at hn
    split at hn
    · cases hn
    · rw [← contains_eq_isSome_node?] at hn
      rw [List.append_assoc]
      exact h.named n hn

/-! ## Comparing -/

/-- Of which compactions a graph was trimmed does not matter to a walk. -/
theorem Trimmed.alike (h : Trimmed g gone left) (h' : Trimmed g' gone' left) : Alike g g' where
  older n := Std.ExtTreeSet.ext_mem fun x => (h.edges n x).trans (h'.edges n x).symm
  generation n hn := by
    obtain ⟨x, hx⟩ := replacedAny_iff.mp hn
    obtain ⟨c, hc, hout, -⟩ := (h.edges n x).mp hx
    rw [h.generation c hc n hout, h'.generation c hc n hout]

/-! ## The first compactions at once -/

/-- Where the inputs of the first compactions are asked to go, these are the files that go, and the
edges that are left are those of the other compactions. -/
theorem expire_foldl_addCompaction (hl : Lineal cs) (k : Nat) (start : List String)
    (hstart : ∀ n, n ∈ start ↔ ∃ c ∈ cs.take k, n ∈ c.inputNames) :
    (∀ n, n ∈ ((cs.foldl Graph.addCompaction {}).expire start).1 ↔
      ∃ c ∈ cs.take k, n ∈ c.inputNames) ∧
    (∀ c ∈ cs.take k, ∀ n ∈ c.inputNames,
      ((cs.foldl Graph.addCompaction {}).expire start).2.contains n = false) ∧
    (∀ n x, (n, x) ∈ ((cs.foldl Graph.addCompaction {}).expire start).2.edges ↔
      ∃ c ∈ cs.drop k, n ∈ c.outputNames ∧ x ∈ c.inputNames) ∧
    ∀ n x, n ∈ ((cs.foldl Graph.addCompaction {}).expire start).2.newerThan x ↔
      ∃ c ∈ cs.drop k, n ∈ c.outputNames ∧ x ∈ c.inputNames := by
  have h : Trimmed (cs.foldl Graph.addCompaction {}) [] (cs.take k ++ cs.drop k) := by
    rw [List.take_append_drop]
    exact trimmed_foldl hl
  have hl' : Lineal ([] ++ (cs.take k ++ cs.drop k)) := by
    rwa [List.nil_append, List.take_append_drop]
  generalize cs.foldl Graph.addCompaction {} = g at h ⊢
  have hnames : g.expiring start = g.expiring ((cs.take k).flatMap Compaction.inputNames) := by
    refine expiring_congr fun n => ?_
    rw [hstart, List.mem_flatMap]
  have hleft := h.expire hl'
  rw [Graph.expire, hnames]
  refine ⟨fun n => h.mem_expiring hl', fun c hc n hn => ?_, fun n x => ?_, fun n x => ?_⟩
  · rw [Bool.eq_false_iff]
    intro hcon
    exact (contains_without.mp hcon).2 ((h.mem_expiring hl').mpr ⟨c, hc, hn⟩)
  · rw [mem_edges]
    exact hleft.edges n x
  · rw [hleft.mirrored]
    exact hleft.edges n x

end Lineage.Graph

namespace Lineage.Sample

open Lineage.Graph

/-- The files `a` and `b` become `c`, `c` and `d` become `e` and `f`, and of `e` comes `g`. -/
def merging : List Compaction :=
  [{ sequence := 1, time := 0, inputs := [{ name := "a" }, { name := "b" }],
      outputs := [{ name := "c" }] },
    { sequence := 2, time := 0, inputs := [{ name := "c" }, { name := "d" }],
      outputs := [{ name := "e" }, { name := "f" }] },
    { sequence := 3, time := 0, inputs := [{ name := "e" }], outputs := [{ name := "g" }] }]

/-- When what the first two compactions consumed goes, the third one is left. -/
theorem expire_merging :
    Lineal merging ∧
    (∀ n, n ∈ ["d", "a", "c", "b"] ↔ ∃ c ∈ merging.take 2, n ∈ c.inputNames) ∧
    "c" ∈ ((merging.foldl Graph.addCompaction {}).expire ["d", "a", "c", "b"]).1 ∧
    "e" ∉ ((merging.foldl Graph.addCompaction {}).expire ["d", "a", "c", "b"]).1 ∧
    ((merging.foldl Graph.addCompaction {}).expire ["d", "a", "c", "b"]).2.contains "d" = false ∧
    ("g", "e") ∈ ((merging.foldl Graph.addCompaction {}).expire ["d", "a", "c", "b"]).2.edges ∧
    ("e", "c") ∉ ((merging.foldl Graph.addCompaction {}).expire ["d", "a", "c", "b"]).2.edges := by
  have hl : Lineal merging := ⟨by decide, by decide, by decide⟩
  have hstart (n : String) : n ∈ ["d", "a", "c", "b"] ↔
      ∃ c ∈ merging.take 2, n ∈ c.inputNames := by
    simp only [merging, Compaction.inputNames, List.take_succ_cons, List.take_zero, List.mem_cons,
      List.not_mem_nil, or_false, exists_eq_or_imp, exists_eq_left, List.map_cons, List.map_nil]
    grind
  obtain ⟨hnames, hgone, hedges, -⟩ := expire_foldl_addCompaction hl 2 _ hstart
  refine ⟨hl, hstart, (hnames "c").mpr (by decide), ?_, ?_, (hedges "g" "e").mpr (by decide), ?_⟩
  · rw [hnames]
    decide
  · exact hgone _ (List.mem_cons_of_mem _ List.mem_cons_self) "d" (by decide)
  · rw [hedges]
    decide

end Lineage.Sample
