import Lineage.Graph.Basic

/-!
# What adding compactions does to the graph

Adding a compaction leads an edge from each of its outputs to each of its inputs
(`mem_olderThan_addCompaction`) and gives a node to every file it names that has none yet
(`bare?_add`). Edges and nodes that are there already stay: a node keeps its generation, bounds and
family for good, and later compactions refine nothing but its counts, which `GraphNode.bare` leaves
out.
-/

namespace Lineage

/-- A node as it was made, without the counts that later compactions refine. -/
def GraphNode.bare (n : GraphNode) : GraphNode := { n with keys := 0, replacedKeys := 0 }

@[simp] theorem GraphNode.bare_withKeys (n : GraphNode) (k : UInt64) :
    (n.withKeys k).bare = n.bare := rfl

@[simp] theorem GraphNode.bare_replacing (n : GraphNode) (k : UInt64) :
    (n.replacing k).bare = n.bare := rfl

@[simp] theorem GraphNode.generation_bare (n : GraphNode) : n.bare.generation = n.generation := rfl

namespace Graph

variable {g : Graph} {inputs outputs : List FileInfo} {generation : UInt64} {n x : String}

/-- The node of a file as it was made. -/
def bare? (g : Graph) (name : String) : Option GraphNode := (g.node? name).map GraphNode.bare

theorem contains_eq_isSome_node? : g.contains n = (g.node? n).isSome :=
  Std.ExtTreeMap.contains_eq_isSome_getElem?

theorem contains_eq_isSome_bare? : g.contains n = (g.bare? n).isSome := by
  rw [contains_eq_isSome_node?, bare?, Option.isSome_map]

theorem isEmpty_eq_false_iff_exists {names : Names} : names.isEmpty = false ↔ ∃ x, x ∈ names := by
  rw [Std.ExtTreeSet.isEmpty_eq_false_iff, Std.ExtTreeSet.eq_empty_iff_forall_not_mem,
    Classical.not_forall_not]

theorem replacedAny_iff : g.replacedAny n = true ↔ ∃ x, x ∈ g.olderThan n := by
  rw [replacedAny, Bool.not_eq_true', isEmpty_eq_false_iff_exists]

theorem mem_outputNames : n ∈ g.outputNames ↔ ∃ x, x ∈ g.olderThan n := by
  rw [outputNames, List.mem_filter, replacedAny_iff, Std.ExtTreeMap.mem_keys]
  refine and_iff_right_of_imp fun ⟨x, hx⟩ => Classical.byContradiction fun hn => ?_
  rw [olderThan, Std.ExtTreeMap.getD_eq_fallback hn] at hx
  exact Std.ExtTreeSet.not_mem_empty hx

theorem mem_edges : (n, x) ∈ g.edges ↔ x ∈ g.olderThan n := by
  simp only [edges, List.mem_flatMap, List.mem_map, Prod.exists, Prod.mk.injEq,
    Std.ExtTreeMap.mem_toList_iff_getElem?_eq_some, Std.ExtTreeSet.mem_toList]
  rw [olderThan, Std.ExtTreeMap.getD_eq_getD_getElem?]
  constructor
  · rintro ⟨_, older, hn, _, hx, rfl, rfl⟩
    rw [hn, Option.getD_some]
    exact hx
  · intro hx
    cases hn : g.older[n]? with
    | none =>
      rw [hn] at hx
      exact (Std.ExtTreeSet.not_mem_empty hx).elim
    | some older =>
      rw [hn] at hx
      exact ⟨n, older, hn, x, hx, rfl, rfl⟩

/-! ## Files -/

@[simp] theorem olderThan_addFile (i : FileInfo) : (g.addFile i generation).olderThan n =
    g.olderThan n := rfl

theorem bare?_addFile (i : FileInfo) : (g.addFile i generation).bare? n =
    if i.name = n then some ((g.bare? n).getD (GraphNode.ofInfo i generation).bare)
    else g.bare? n := by
  simp only [bare?, node?, addFile, Std.ExtTreeMap.getElem?_insert, Std.compare_eq_iff_eq]
  split
  · rename_i h
    subst h
    cases g.nodes[i.name]? <;> cases i.keys <;> simp
  · rfl

/-- A file gets its node from the first of the infos that names it. -/
theorem bare?_foldl_addFile (infos : List FileInfo) :
    (infos.foldl (fun g i => g.addFile i generation) g).bare? n =
      (g.bare? n).or ((infos.find? (·.name = n)).map fun i => (GraphNode.ofInfo i generation).bare) := by
  induction infos generalizing g with
  | nil => simp
  | cons i rest ih =>
    rw [List.foldl_cons, ih, bare?_addFile, List.find?_cons]
    by_cases h : i.name = n
    · simp only [h, if_true, decide_true, Option.map_some, Option.some_or]
      cases g.bare? n <;> rfl
    · simp only [h, if_false, decide_false]

theorem olderThan_foldl_addFile (infos : List FileInfo) :
    (infos.foldl (fun g i => g.addFile i generation) g).olderThan n = g.olderThan n := by
  induction infos generalizing g with
  | nil => rfl
  | cons i rest ih => rw [List.foldl_cons, ih, olderThan_addFile]

/-! ## Edges -/

/-- A new edge adds to what its newer end replaced, and leaves all other nodes as they are. -/
theorem node?_addEdge (a b : String) : (g.addEdge a b).node? n =
    if n = a ∧ a ≠ b ∧ b ∉ g.olderThan a then
      (g.node? n).map (·.replacing (g.keysOf b))
    else g.node? n := by
  unfold addEdge
  split
  · rename_i hknown
    rw [if_neg fun hnew => hknown.elim hnew.2.1 hnew.2.2]
  · rename_i hnew
    rw [not_or] at hnew
    by_cases hn : n = a
    · subst hn
      rw [if_pos ⟨rfl, hnew⟩]
      cases hm : g.node? n with
      | none => exact hm
      | some m => exact Std.ExtTreeMap.getElem?_insert_self
    · rw [if_neg fun h => hn h.1]
      cases g.node? a with
      | none => rfl
      | some m =>
        simp only [node?, Std.ExtTreeMap.getElem?_insert, Std.compare_eq_iff_eq]
        exact if_neg fun h => hn h.symm

theorem bare?_addEdge (a b : String) : (g.addEdge a b).bare? n = g.bare? n := by
  rw [bare?, bare?, node?_addEdge]
  split
  · rw [Option.map_map]
    rfl
  · rfl

theorem mem_olderThan_addEdge (a b : String) : x ∈ (g.addEdge a b).olderThan n ↔
    x ∈ g.olderThan n ∨ n = a ∧ x = b ∧ a ≠ b := by
  unfold addEdge
  split
  · rename_i h
    constructor
    · exact .inl
    · rintro (hx | ⟨rfl, rfl, hne⟩)
      · exact hx
      · exact h.resolve_left hne
  · rename_i h
    simp only [not_or] at h
    simp only [olderThan, Std.ExtTreeMap.getD_insert, Std.compare_eq_iff_eq]
    split
    · rename_i hn
      subst hn
      simp only [Std.ExtTreeSet.mem_insert, Std.compare_eq_iff_eq, true_and]
      constructor
      · rintro (rfl | hx)
        · exact .inr ⟨rfl, h.1⟩
        · exact .inl hx
      · rintro (hx | ⟨rfl, -⟩)
        · exact .inr hx
        · exact .inl rfl
    · rename_i hn
      exact ⟨.inl, fun hx => hx.resolve_right fun he => hn he.1.symm⟩

/-- The edges from one output, to all inputs. -/
theorem mem_olderThan_foldl_addEdge (a : String) : x ∈ (inputs.foldl (fun g i =>
    g.addEdge a i.name) g).olderThan n ↔
      x ∈ g.olderThan n ∨ n = a ∧ (∃ i ∈ inputs, i.name = x) ∧ n ≠ x := by
  induction inputs generalizing g with
  | nil => simp
  | cons i rest ih =>
    rw [List.foldl_cons, ih, mem_olderThan_addEdge]
    grind

theorem bare?_foldl_addEdge (a : String) : (inputs.foldl (fun g i =>
    g.addEdge a i.name) g).bare? n = g.bare? n := by
  induction inputs generalizing g with
  | nil => rfl
  | cons i rest ih => rw [List.foldl_cons, ih, bare?_addEdge]

/-! ## Compactions -/

theorem mem_olderThan_add : x ∈ (g.add inputs outputs generation).olderThan n ↔
    x ∈ g.olderThan n ∨ (∃ o ∈ outputs, o.name = n) ∧ (∃ i ∈ inputs, i.name = x) ∧ n ≠ x := by
  have mem_foldl (os : List FileInfo) (g : Graph) : x ∈ (os.foldl (fun g o =>
      inputs.foldl (fun g i => g.addEdge o.name i.name) g) g).olderThan n ↔
        x ∈ g.olderThan n ∨ (∃ o ∈ os, o.name = n) ∧ (∃ i ∈ inputs, i.name = x) ∧ n ≠ x := by
    induction os generalizing g with
    | nil => simp
    | cons o rest ih =>
      rw [List.foldl_cons, ih, mem_olderThan_foldl_addEdge]
      grind
  rw [add, mem_foldl, olderThan_foldl_addFile]

theorem bare?_add : (g.add inputs outputs generation).bare? n = (g.bare? n).or
    (((outputs ++ inputs).find? (·.name = n)).map fun i =>
      (GraphNode.ofInfo i generation).bare) := by
  have bare_foldl (os : List FileInfo) (g : Graph) : (os.foldl (fun g o =>
      inputs.foldl (fun g i => g.addEdge o.name i.name) g) g).bare? n = g.bare? n := by
    induction os generalizing g with
    | nil => rfl
    | cons o rest ih => rw [List.foldl_cons, ih, bare?_foldl_addEdge]
  rw [add, bare_foldl, bare?_foldl_addFile]

theorem contains_add : (g.add inputs outputs generation).contains n = true ↔
    g.contains n = true ∨ (∃ o ∈ outputs, o.name = n) ∨ ∃ i ∈ inputs, i.name = n := by
  simp only [contains_eq_isSome_bare?, bare?_add, Option.isSome_or, Bool.or_eq_true,
    Option.isSome_map, List.find?_isSome, List.mem_append, decide_eq_true_eq, or_and_right,
    exists_or]

/-- What each edge from an output to an input keeps when it is added, all of them keep. -/
theorem edges_induction {P : Graph → Prop}
    (edge : ∀ {g : Graph}, P g → ∀ o ∈ outputs, ∀ i ∈ inputs, P (g.addEdge o.name i.name))
    (h : P g) :
    P (outputs.foldl (fun g o => inputs.foldl (fun g i => g.addEdge o.name i.name) g) g) := by
  refine List.foldlRecOn _ _ h fun g hg o ho => ?_
  exact List.foldlRecOn _ _ hg fun g hg i hi => edge hg o ho i hi

/-- What single files and edges keep when they are added, compactions keep. -/
theorem add_induction {P : Graph → Prop}
    (file : ∀ {g : Graph}, P g → ∀ i, P (g.addFile i generation))
    (edge : ∀ {g : Graph}, P g → ∀ a b, P (g.addEdge a b)) (h : P g) :
    P (g.add inputs outputs generation) :=
  edges_induction (fun hg o _ i _ => edge hg o.name i.name)
    (List.foldlRecOn _ _ h fun _ hg i _ => file hg i)

variable {c : Compaction}

/-- Every output of a compaction leads to every input, and no file to itself. -/
theorem mem_olderThan_addCompaction : x ∈ (g.addCompaction c).olderThan n ↔
    x ∈ g.olderThan n ∨ n ∈ c.outputNames ∧ x ∈ c.inputNames ∧ n ≠ x := by
  simp only [addCompaction, mem_olderThan_add, Compaction.outputNames, Compaction.inputNames,
    List.mem_map]

theorem contains_addCompaction : (g.addCompaction c).contains n = true ↔
    g.contains n = true ∨ n ∈ c.outputNames ∨ n ∈ c.inputNames := by
  simp only [addCompaction, contains_add, Compaction.outputNames, Compaction.inputNames,
    List.mem_map]

/-- In whatever order compactions are added, they lead to the same edges. -/
theorem mem_olderThan_foldl_addCompaction {cs : List Compaction} :
    x ∈ (cs.foldl addCompaction g).olderThan n ↔
      x ∈ g.olderThan n ∨ ∃ c ∈ cs, n ∈ c.outputNames ∧ x ∈ c.inputNames ∧ n ≠ x := by
  induction cs generalizing g with
  | nil => simp
  | cons c rest ih =>
    rw [List.foldl_cons, ih, mem_olderThan_addCompaction]
    simp [or_assoc]

theorem contains_foldl_addCompaction {cs : List Compaction} :
    (cs.foldl addCompaction g).contains n = true ↔
      g.contains n = true ∨ ∃ c ∈ cs, n ∈ c.outputNames ∨ n ∈ c.inputNames := by
  induction cs generalizing g with
  | nil => simp
  | cons c rest ih =>
    rw [List.foldl_cons, ih, contains_addCompaction]
    simp [or_assoc]

/-- A node that was not there before has the compaction's sequence number. -/
theorem generation_of_bare?_addCompaction {m : GraphNode} (h : (g.addCompaction c).bare? n = some m) :
    g.bare? n = some m ∨ m.generation = c.sequence := by
  rw [addCompaction, bare?_add] at h
  cases hg : g.bare? n with
  | some k => exact .inl (by rwa [hg, Option.some_or] at h)
  | none =>
    rw [hg, Option.none_or] at h
    obtain ⟨i, -, rfl⟩ := Option.map_eq_some_iff.mp h
    exact .inr rfl

/-! ## Edges from their older ends -/

/-- The edges are kept alike from both ends. -/
def Mirrored (g : Graph) : Prop := ∀ n x, n ∈ g.newerThan x ↔ x ∈ g.olderThan n

theorem mirrored_empty : ({} : Graph).Mirrored := by
  intro n x
  simp [newerThan, olderThan]

theorem Mirrored.addFile (h : g.Mirrored) (i : FileInfo) : (g.addFile i generation).Mirrored := h

theorem Mirrored.addEdge (h : g.Mirrored) (a b : String) : (g.addEdge a b).Mirrored := by
  intro n x
  rw [mem_olderThan_addEdge, ← h]
  unfold Graph.addEdge
  split
  · rename_i he
    refine (or_iff_left_of_imp ?_).symm
    rintro ⟨rfl, rfl, hne⟩
    exact (h n x).mpr (he.resolve_left hne)
  · rename_i he
    rw [not_or] at he
    simp only [newerThan, Std.ExtTreeMap.getD_insert, Std.compare_eq_iff_eq]
    split
    · rename_i hb
      subst hb
      rw [Std.ExtTreeSet.mem_insert, Std.compare_eq_iff_eq]
      grind
    · rename_i hb
      exact ⟨.inl, fun hx => hx.resolve_right fun hn => hb hn.2.1.symm⟩

theorem Mirrored.add (h : g.Mirrored) : (g.add inputs outputs generation).Mirrored :=
  add_induction Mirrored.addFile Mirrored.addEdge h

theorem Mirrored.foldl_addCompaction {cs : List Compaction} (h : g.Mirrored) :
    (cs.foldl Graph.addCompaction g).Mirrored := by
  induction cs generalizing g with
  | nil => exact h
  | cons c rest ih => exact ih h.add

/-! ## Ranks -/

/-- Files can be given ranks up to `k` that go down along every edge. -/
def Ranked (g : Graph) (k : Nat) : Prop :=
  ∃ rank : String → Nat, (∀ n, rank n ≤ k) ∧ ∀ n x, x ∈ g.olderThan n → rank x < rank n

theorem ranked_empty : ({} : Graph).Ranked 0 :=
  ⟨fun _ => 0, fun _ => Nat.le_refl 0, fun _ _ hx => (Std.ExtTreeSet.not_mem_empty hx).elim⟩

/-- Outputs that nothing leads to get a rank of their own. -/
theorem Ranked.addCompaction {k : Nat} (h : g.Ranked k)
    (hown : ∀ n ∈ c.outputNames, n ∉ c.inputNames)
    (hnew : ∀ n ∈ c.outputNames, ∀ m, n ∉ g.olderThan m) : (g.addCompaction c).Ranked (k + 1) := by
  obtain ⟨rank, hle, hlt⟩ := h
  refine ⟨fun n => if n ∈ c.outputNames then k + 1 else rank n, fun n => ?_, fun n x hx => ?_⟩ <;>
    dsimp only
  · split
    · exact Nat.le_refl _
    · exact Nat.le_succ_of_le (hle n)
  · rcases mem_olderThan_addCompaction.mp hx with hx | ⟨hn, hx, -⟩
    · rw [if_neg fun ho => hnew x ho n hx]
      split
      · exact Nat.lt_succ_of_le (hle x)
      · exact hlt n x hx
    · rw [if_pos hn, if_neg fun ho => hown x ho hx]
      exact Nat.lt_succ_of_le (hle x)

end Graph

end Lineage
