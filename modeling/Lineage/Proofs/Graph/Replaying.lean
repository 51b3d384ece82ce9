import Mathlib.Data.List.Induction
import Lineage.Proofs.Graph.Adding

/-!
# Compactions that are added again

Adding a list of compactions once more changes nothing (`foldl_addCompaction_again`). By then all
files have nodes and all edges are there, so all that is left to do is to tell the numbers of
entries again (`foldl_addCompaction_eq_tell`); and of each file the number told last is the one it
has already (`map_keys_foldl_addCompaction`).
-/

namespace Lineage

/-- The files that a compaction names, in the order in which they are added. -/
def Compaction.files (c : Compaction) : List FileInfo := c.outputs ++ c.inputs

namespace Graph

variable {g : Graph} {infos : List FileInfo} {i : FileInfo} {generation k : UInt64} {n : String}
  {c : Compaction} {cs : List Compaction}

/-! ## Numbers of entries -/

/-- The number of entries that is told last of a file. -/
def told (infos : List FileInfo) (name : String) : Option UInt64 :=
  (infos.filterMap fun i => if i.name = name then i.keys else none).getLast?

theorem told_append (infos infos' : List FileInfo) :
    told (infos ++ infos') n = (told infos' n).or (told infos n) := by
  simp only [told, List.filterMap_append, List.getLast?_append]

theorem told_cons : told (i :: infos) n = (told infos n).or (told [i] n) :=
  told_append [i] infos

theorem told_singleton : told [i] n = if i.name = n then i.keys else none := by
  rw [told, List.filterMap_cons, List.filterMap_nil]
  cases if i.name = n then i.keys else none <;> rfl

theorem map_keys_addFile (h : (told [i] n).or ((g.node? n).map GraphNode.keys) = some k) :
    ((g.addFile i generation).node? n).map GraphNode.keys = some k := by
  rw [told_singleton] at h
  simp only [node?, addFile, Std.ExtTreeMap.getElem?_insert, Std.compare_eq_iff_eq] at h ⊢
  split
  · rename_i hn
    subst hn
    rw [if_pos rfl] at h
    cases hk : i.keys with
    | some keys =>
      rw [hk, Option.some_or] at h
      exact h
    | none =>
      obtain ⟨m, hm, rfl⟩ : ∃ m, g.nodes[i.name]? = some m ∧ m.keys = k := by simpa [hk] using h
      simp [hm]
  · rename_i hn
    rwa [if_neg hn, Option.none_or] at h

theorem map_keys_foldl_addFile (h : (told infos n).or ((g.node? n).map GraphNode.keys) = some k) :
    ((infos.foldl (fun g i => g.addFile i generation) g).node? n).map GraphNode.keys = some k := by
  induction infos generalizing g with
  | nil => simpa [told] using h
  | cons i rest ih =>
    rw [List.foldl_cons]
    apply ih
    rw [told_cons, Option.or_assoc] at h
    cases hr : told rest n with
    | some keys => rwa [hr, Option.some_or] at h
    | none =>
      rw [hr, Option.none_or] at h
      rw [Option.none_or]
      exact map_keys_addFile h

theorem map_keys_addEdge (a b : String) :
    ((g.addEdge a b).node? n).map GraphNode.keys = (g.node? n).map GraphNode.keys := by
  rw [node?_addEdge]
  split
  · rw [Option.map_map]
    rfl
  · rfl

/-- A file has the number of entries that was told last, or the one it had. -/
theorem map_keys_addCompaction
    (h : (told c.files n).or ((g.node? n).map GraphNode.keys) = some k) :
    ((g.addCompaction c).node? n).map GraphNode.keys = some k := by
  rw [addCompaction, add]
  apply edges_induction (P := fun g => (g.node? n).map GraphNode.keys = some k)
  · intro g hg o _ i _
    rwa [map_keys_addEdge]
  · exact map_keys_foldl_addFile h

theorem map_keys_foldl_addCompaction (h : told (cs.flatMap Compaction.files) n = some k) :
    ((cs.foldl addCompaction g).node? n).map GraphNode.keys = some k := by
  induction cs using List.reverseRecOn with
  | nil => cases h
  | append_singleton cs c ih =>
    rw [List.foldl_append, List.foldl_cons, List.foldl_nil]
    apply map_keys_addCompaction
    rw [List.flatMap_append, told_append, List.flatMap_singleton] at h
    cases hc : told c.files n with
    | some keys => rwa [hc, Option.some_or] at h
    | none =>
      rw [hc, Option.none_or] at h
      rw [Option.none_or]
      exact ih h

/-! ## Compactions that are known -/

/-- A graph has the files and the edges of a compaction. -/
structure Knows (g : Graph) (c : Compaction) : Prop where
  files : ∀ i ∈ c.files, g.contains i.name = true
  edges : ∀ o ∈ c.outputs, ∀ i ∈ c.inputs, o.name = i.name ∨ i.name ∈ g.olderThan o.name

/-- Takes in the number of entries of a file that has a node. -/
def tell (g : Graph) (i : FileInfo) : Graph :=
  { g with nodes := g.nodes.alter i.name (Option.map fun n => i.keys.elim n n.withKeys) }

theorem node?_tell : (g.tell i).node? n =
    (g.node? n).map fun m => (told [i] n).elim m m.withKeys := by
  rw [told_singleton]
  simp only [node?, tell, Std.ExtTreeMap.getElem?_alter, Std.compare_eq_iff_eq]
  split
  · rename_i hn
    rw [hn]
  · simp

theorem node?_foldl_tell : (infos.foldl tell g).node? n =
    (g.node? n).map fun m => (told infos n).elim m m.withKeys := by
  induction infos generalizing g with
  | nil => simp [told]
  | cons i rest ih =>
    rw [List.foldl_cons, ih, told_cons, node?_tell, Option.map_map]
    congr 1
    funext m
    cases told rest n <;> cases told [i] n <;> rfl

theorem contains_tell : (g.tell i).contains n = g.contains n := by
  rw [contains_eq_isSome_node?, node?_tell, Option.isSome_map, ← contains_eq_isSome_node?]

theorem Knows.foldl_tell (h : g.Knows c) : (infos.foldl tell g).Knows c := by
  refine List.foldlRecOn (motive := (Knows · c)) _ _ h fun g hg i _ => ⟨fun j hj => ?_, hg.edges⟩
  rw [contains_tell]
  exact hg.files j hj

theorem addFile_eq_tell (h : g.contains i.name = true) : g.addFile i generation = g.tell i := by
  rw [contains_eq_isSome_node?, Option.isSome_iff_exists] at h
  obtain ⟨m, hm⟩ := h
  have hnodes : g.nodes.insert i.name (i.keys.elim m m.withKeys) =
      g.nodes.alter i.name (Option.map fun n => i.keys.elim n n.withKeys) := by
    refine Std.ExtTreeMap.ext_getElem? fun n => ?_
    rw [Std.ExtTreeMap.getElem?_insert, Std.ExtTreeMap.getElem?_alter]
    split
    · rw [← node?, hm, Option.map_some]
    · rfl
  rw [addFile, hm, Option.getD_some]
  exact congrArg (fun nodes => { g with nodes := nodes }) hnodes

theorem foldl_addFile_eq_tell (h : ∀ i ∈ infos, g.contains i.name = true) :
    infos.foldl (fun g i => g.addFile i generation) g = infos.foldl tell g := by
  induction infos generalizing g with
  | nil => rfl
  | cons i rest ih =>
    rw [List.forall_mem_cons] at h
    rw [List.foldl_cons, List.foldl_cons, addFile_eq_tell h.1]
    apply ih
    intro j hj
    rw [contains_tell]
    exact h.2 j hj

theorem Knows.addCompaction_eq_tell (h : g.Knows c) :
    g.addCompaction c = c.files.foldl tell g := by
  have hknows : (c.files.foldl tell g).Knows c := h.foldl_tell
  rw [addCompaction, add, ← Compaction.files, foldl_addFile_eq_tell h.files]
  -- No edge is new.
  refine edges_induction (P := (· = c.files.foldl tell g)) (fun hg o ho i hi => ?_) rfl
  rw [hg, addEdge, if_pos (hknows.edges o ho i hi)]

/-- Where all compactions are known, adding them is telling the numbers of entries of their
files. -/
theorem foldl_addCompaction_eq_tell (h : ∀ c ∈ cs, g.Knows c) :
    cs.foldl addCompaction g = (cs.flatMap Compaction.files).foldl tell g := by
  induction cs generalizing g with
  | nil => rfl
  | cons c rest ih =>
    rw [List.forall_mem_cons] at h
    rw [List.foldl_cons, h.1.addCompaction_eq_tell, List.flatMap_cons, List.foldl_append]
    exact ih fun c' hc => (h.2 c' hc).foldl_tell

theorem knows_foldl_addCompaction (h : c ∈ cs) : (cs.foldl addCompaction g).Knows c where
  files i hi := by
    rw [contains_foldl_addCompaction]
    refine .inr ⟨c, h, ?_⟩
    rw [Compaction.files, List.mem_append] at hi
    exact hi.imp (List.mem_map_of_mem ·) (List.mem_map_of_mem ·)
  edges o ho i hi := by
    by_cases he : o.name = i.name
    · exact .inl he
    · rw [mem_olderThan_foldl_addCompaction]
      exact .inr (.inr ⟨c, h, List.mem_map_of_mem ho, List.mem_map_of_mem hi, he⟩)

/-- Telling numbers of entries changes nothing if of each file the last is the one it has. -/
theorem foldl_tell_eq_self
    (h : ∀ n m, g.node? n = some m → ∀ k, told infos n = some k → m.keys = k) :
    infos.foldl tell g = g := by
  have hnodes : (infos.foldl tell g).nodes = g.nodes := by
    refine Std.ExtTreeMap.ext_getElem? fun n => ?_
    have hn : (infos.foldl tell g).node? n = _ := node?_foldl_tell
    rw [node?, node?] at hn
    rw [hn]
    cases hm : g.nodes[n]? with
    | none => rfl
    | some m =>
      cases hk : told infos n with
      | none => rfl
      | some k =>
        have hkeys : m.keys = k := h n m hm k hk
        rw [Option.map_some, Option.elim_some, ← hkeys]
        rfl
  have hedges : (infos.foldl tell g).older = g.older ∧ (infos.foldl tell g).newer = g.newer :=
    List.foldlRecOn (motive := fun (g' : Graph) => g'.older = g.older ∧ g'.newer = g.newer) _ _
      ⟨rfl, rfl⟩ fun _ hg _ _ => hg
  obtain ⟨holder, hnewer⟩ := hedges
  generalize infos.foldl tell g = g' at hnodes holder hnewer
  obtain ⟨nodes, older, newer⟩ := g'
  cases hnodes
  cases holder
  cases hnewer
  rfl

/-- Adding compactions that were added before leaves all nodes and edges as they are, whatever the
compactions tell of their files. -/
theorem foldl_addCompaction_again (g : Graph) (cs : List Compaction) :
    cs.foldl addCompaction (cs.foldl addCompaction g) = cs.foldl addCompaction g := by
  rw [foldl_addCompaction_eq_tell fun c hc => knows_foldl_addCompaction hc]
  apply foldl_tell_eq_self
  intro n m hm k hk
  have hkeys := map_keys_foldl_addCompaction (g := g) hk
  rwa [hm, Option.map_some, Option.some.injEq] at hkeys

end Graph

end Lineage
