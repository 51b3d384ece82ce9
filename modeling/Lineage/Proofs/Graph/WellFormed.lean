import Lineage.Proofs.Graph.Expiring

/-!
# Well-formed graphs

The nodes of a graph and its two indexes are changed one after the other. `WellFormed` says what
makes them fit together; adding compactions keeps it (`WellFormed.add`), and so does removing files
(`WellFormed.without`). As a well-formed graph is known by its nodes and edges (`WellFormed.ext`),
files may as well be removed one by one, in any order, and every graph in between is well-formed too
(`WellFormed.foldl_remove`).
-/

namespace Lineage.Graph

variable {g g' : Graph} {a a' : Adjacency} {inputs outputs : List FileInfo} {generation : UInt64}
  {names : Names} {l : List String} {k m n x : String}

/-! ## Indexes -/

/-- An index keeps no empty set of neighbours. -/
def Full (a : Adjacency) : Prop := ∀ n : String, a[n]? ≠ some ∅

theorem full_empty : Full ∅ := by
  intro n
  rw [Std.ExtTreeMap.getElem?_empty]
  exact (Option.some_ne_none ∅).symm

theorem Full.insert (h : Full a) (hx : x ∈ names) : Full (a.insert n names) := by
  intro k hk
  rw [Std.ExtTreeMap.getElem?_insert] at hk
  split at hk
  · rw [Option.some.inj hk] at hx
    exact Std.ExtTreeSet.not_mem_empty hx
  · exact h k hk

theorem Full.erase (h : Full a) : Full (a.erase n) := by
  intro k hk
  rw [Std.ExtTreeMap.getElem?_erase] at hk
  split at hk
  · cases hk
  · exact h k hk

theorem full_dropNames : Full (dropNames names a) := by
  intro k hk
  rw [dropNames, Std.ExtTreeMap.getElem?_filterMap'] at hk
  obtain ⟨ns, -, hns⟩ := Option.bind_eq_some_iff.mp hk
  dsimp only at hns
  split at hns
  · cases hns
  · rename_i hleft
    rw [Option.some.inj hns] at hleft
    exact hleft (.inr rfl)

/-- Without empty sets, an index is known by who is whose neighbour. -/
theorem Full.ext (h : Full a) (h' : Full a') (hn : ∀ n x, x ∈ a.getD n ∅ ↔ x ∈ a'.getD n ∅) :
    a = a' := by
  refine Std.ExtTreeMap.ext_getElem? fun n => ?_
  have he : a[n]?.getD ∅ = a'[n]?.getD ∅ := by
    rw [← Std.ExtTreeMap.getD_eq_getD_getElem?, ← Std.ExtTreeMap.getD_eq_getD_getElem?]
    exact Std.ExtTreeSet.ext_mem (hn n)
  have hfull := h n
  have hfull' := h' n
  cases ha : a[n]? <;> cases ha' : a'[n]? <;> simp_all

/-! ## The invariant -/

/-- The edges are kept alike from both ends, lead from nodes to other nodes, and leave no empty
set. -/
structure WellFormed (g : Graph) : Prop where
  mirrored : g.Mirrored
  ends : ∀ n, ∀ x ∈ g.olderThan n, g.contains n = true ∧ g.contains x = true
  proper : ∀ n, n ∉ g.olderThan n
  older : Full g.older
  newer : Full g.newer

theorem wellFormed_empty : WellFormed {} where
  mirrored := mirrored_empty
  ends _ _ hx := (Std.ExtTreeSet.not_mem_empty hx).elim
  proper _ hx := (Std.ExtTreeSet.not_mem_empty hx).elim
  older := full_empty
  newer := full_empty

/-- A well-formed graph is known by its nodes and edges. -/
theorem WellFormed.ext (h : WellFormed g) (h' : WellFormed g') (nodes : ∀ n, g.node? n = g'.node? n)
    (edges : ∀ n x, x ∈ g.olderThan n ↔ x ∈ g'.olderThan n) : g = g' := by
  have hnodes : g.nodes = g'.nodes := Std.ExtTreeMap.ext_getElem? nodes
  have holder : g.older = g'.older := h.older.ext h'.older edges
  have hnewer : g.newer = g'.newer := by
    refine h.newer.ext h'.newer fun x n => ?_
    calc
      n ∈ g.newerThan x ↔ x ∈ g.olderThan n := h.mirrored n x
      _ ↔ x ∈ g'.olderThan n := edges n x
      _ ↔ n ∈ g'.newerThan x := (h'.mirrored n x).symm
  obtain ⟨nodes, older, newer⟩ := g
  obtain ⟨nodes', older', newer'⟩ := g'
  rw [Graph.mk.injEq]
  exact ⟨hnodes, holder, hnewer⟩

/-! ## Adding compactions -/

/-- Neither index keeps an empty set. -/
def BothFull (g : Graph) : Prop := Full g.older ∧ Full g.newer

theorem BothFull.addEdge (h : g.BothFull) (a b : String) : (g.addEdge a b).BothFull := by
  unfold Graph.addEdge
  split
  · exact h
  · exact ⟨h.1.insert Std.ExtTreeSet.mem_insert_self, h.2.insert Std.ExtTreeSet.mem_insert_self⟩

theorem BothFull.add (h : g.BothFull) : (g.add inputs outputs generation).BothFull :=
  add_induction (P := BothFull) (fun h _ => h) BothFull.addEdge h

theorem WellFormed.add (h : WellFormed g) : WellFormed (g.add inputs outputs generation) where
  mirrored := h.mirrored.add
  ends n x hx := by
    rw [contains_add, contains_add]
    rcases mem_olderThan_add.mp hx with hx | ⟨hn, hx, -⟩
    · obtain ⟨hn, hx⟩ := h.ends n x hx
      exact ⟨.inl hn, .inl hx⟩
    · exact ⟨.inr (.inl hn), .inr (.inr hx)⟩
  proper n hn := by
    rcases mem_olderThan_add.mp hn with hn | ⟨-, -, hne⟩
    · exact h.proper n hn
    · exact hne rfl
  older := (BothFull.add ⟨h.older, h.newer⟩).1
  newer := (BothFull.add ⟨h.older, h.newer⟩).2

/-! ## Removing files -/

/-- Of the files of a graph another one has just those that stay, and of the edges those between
them. -/
structure Restricts (g g' : Graph) (stays : String → Prop) : Prop where
  contains : ∀ n, g'.contains n = true ↔ g.contains n = true ∧ stays n
  older : ∀ n x, x ∈ g'.olderThan n ↔ x ∈ g.olderThan n ∧ stays n ∧ stays x
  newer : ∀ n x, x ∈ g'.newerThan n ↔ x ∈ g.newerThan n ∧ stays n ∧ stays x

theorem WellFormed.restrict {stays : String → Prop} (h : WellFormed g) (hr : Restricts g g' stays)
    (older : Full g'.older) (newer : Full g'.newer) : WellFormed g' where
  mirrored n x := by
    rw [hr.newer, hr.older, h.mirrored n x]
    exact and_congr_right fun _ => and_comm
  ends n x hx := by
    obtain ⟨hx, hn, hx'⟩ := (hr.older n x).mp hx
    obtain ⟨hcn, hcx⟩ := h.ends n x hx
    exact ⟨(hr.contains n).mpr ⟨hcn, hn⟩, (hr.contains x).mpr ⟨hcx, hx'⟩⟩
  proper n hn := h.proper n ((hr.older n n).mp hn).1
  older := older
  newer := newer

theorem restricts_without : Restricts g (g.without names) (· ∉ names) where
  contains _ := contains_without
  older _ _ := mem_olderThan_without
  newer _ _ := mem_newerThan_without

theorem WellFormed.without (h : WellFormed g) : WellFormed (g.without names) :=
  h.restrict restricts_without full_dropNames full_dropNames

/-! ### One by one -/

/-- Drops a name from the neighbours of a file, and the set of these if it becomes empty. -/
def dropNeighbour (name : String) (a : Adjacency) (n : String) : Adjacency :=
  a.alter n fun ns => (ns.map (·.erase name)).filter (!·.isEmpty)

/-- Removes one file: its edges to older files, from both ends, and then those from newer ones. -/
def remove (g : Graph) (name : String) : Graph :=
  let newer := (g.olderThan name).foldl (dropNeighbour name) g.newer
  { nodes := g.nodes.erase name
    older := (newer.getD name ∅).foldl (dropNeighbour name) (g.older.erase name)
    newer := newer.erase name }

/-- Whether an empty set is kept or not, it has no members. -/
theorem getD_filter_isEmpty (ns : Option Names) :
    (ns.filter (!·.isEmpty)).getD ∅ = ns.getD ∅ := by
  cases ns with
  | none => rfl
  | some ns =>
    cases hempty : ns.isEmpty with
    | true => simp [Option.filter, Std.ExtTreeSet.isEmpty_iff.mp hempty]
    | false => simp [Option.filter, hempty]

theorem mem_getD_dropNeighbour :
    x ∈ (dropNeighbour m a k).getD n ∅ ↔ x ∈ a.getD n ∅ ∧ ¬(n = k ∧ x = m) := by
  rw [dropNeighbour, Std.ExtTreeMap.getD_alter, Std.ExtTreeMap.getD_eq_getD_getElem?]
  simp only [Std.compare_eq_iff_eq, getD_filter_isEmpty]
  split
  · rename_i hk
    subst hk
    cases a[k]? with
    | none => simp
    | some ns =>
      simp only [Option.map_some, Option.getD_some, Std.ExtTreeSet.mem_erase, ne_eq,
        Std.compare_eq_iff_eq]
      grind
  · rename_i hk
    exact (and_iff_left fun h => hk h.1.symm).symm

theorem mem_getD_foldl_dropNeighbour :
    x ∈ (names.foldl (dropNeighbour m) a).getD n ∅ ↔ x ∈ a.getD n ∅ ∧ ¬(n ∈ names ∧ x = m) := by
  have mem_foldl (l : List String) (a : Adjacency) :
      x ∈ (l.foldl (dropNeighbour m) a).getD n ∅ ↔ x ∈ a.getD n ∅ ∧ ¬(n ∈ l ∧ x = m) := by
    induction l generalizing a with
    | nil => simp
    | cons k rest ih =>
      rw [List.foldl_cons, ih, mem_getD_dropNeighbour, List.mem_cons]
      grind
  rw [Std.ExtTreeSet.foldl_eq_foldl_toList, mem_foldl, Std.ExtTreeSet.mem_toList]

theorem Full.dropNeighbour (h : Full a) : Full (dropNeighbour m a k) := by
  intro n hn
  rw [Graph.dropNeighbour, Std.ExtTreeMap.getElem?_alter] at hn
  split at hn
  · rw [Option.filter_eq_some_iff] at hn
    simp at hn
  · exact h n hn

theorem Full.foldl_dropNeighbour (h : Full a) : Full (names.foldl (Graph.dropNeighbour m) a) := by
  rw [Std.ExtTreeSet.foldl_eq_foldl_toList]
  exact List.foldlRecOn _ _ h fun _ ha _ _ => ha.dropNeighbour

theorem node?_remove : (g.remove m).node? n = if m = n then none else g.node? n := by
  simp only [node?, remove, Std.ExtTreeMap.getElem?_erase, Std.compare_eq_iff_eq]

theorem contains_remove :
    (g.remove m).contains n = true ↔ g.contains n = true ∧ n ≠ m := by
  simp only [contains, remove, Std.ExtTreeMap.contains_erase, Bool.and_eq_true, bne_iff_ne, ne_eq,
    Std.compare_eq_iff_eq]
  grind

theorem mem_newerThan_remove (h : g.Mirrored) :
    n ∈ (g.remove m).newerThan x ↔ n ∈ g.newerThan x ∧ x ≠ m ∧ n ≠ m := by
  have hnewer : (g.remove m).newer =
      ((g.olderThan m).foldl (dropNeighbour m) g.newer).erase m := rfl
  rw [newerThan, hnewer, Std.ExtTreeMap.getD_erase]
  split
  · rename_i hx
    refine iff_of_false Std.ExtTreeSet.not_mem_empty fun hn => ?_
    exact hn.2.1 (Std.compare_eq_iff_eq.mp hx).symm
  · rename_i hx
    rw [Std.compare_eq_iff_eq] at hx
    rw [mem_getD_foldl_dropNeighbour, ← newerThan]
    have hm : n = m → n ∈ g.newerThan x → x ∈ g.olderThan m := fun he hn => (h m x).mp (he ▸ hn)
    grind

/-- The newer files of the one removed are asked for when its older ones have dropped it already,
and it is none of those itself. -/
theorem mem_olderThan_remove (h : g.Mirrored) (hm : m ∉ g.olderThan m) :
    x ∈ (g.remove m).olderThan n ↔ x ∈ g.olderThan n ∧ n ≠ m ∧ x ≠ m := by
  have holder : (g.remove m).older =
      (((g.olderThan m).foldl (dropNeighbour m) g.newer).getD m ∅).foldl (dropNeighbour m)
        (g.older.erase m) := rfl
  have hback : n ∈ ((g.olderThan m).foldl (dropNeighbour m) g.newer).getD m ∅ ↔
      m ∈ g.olderThan n := by
    rw [mem_getD_foldl_dropNeighbour, and_iff_left fun he => hm he.1, ← newerThan, h n m]
  rw [olderThan, holder, mem_getD_foldl_dropNeighbour, hback, Std.ExtTreeMap.getD_erase]
  split
  · rename_i hn
    refine iff_of_false (fun hx => Std.ExtTreeSet.not_mem_empty hx.1) fun hx => ?_
    exact hx.2.1 (Std.compare_eq_iff_eq.mp hn).symm
  · rename_i hn
    rw [Std.compare_eq_iff_eq] at hn
    rw [← olderThan]
    grind

theorem WellFormed.restricts_remove (h : WellFormed g) : Restricts g (g.remove m) (· ≠ m) where
  contains _ := contains_remove
  older _ _ := mem_olderThan_remove h.mirrored (h.proper m)
  newer _ _ := mem_newerThan_remove h.mirrored

theorem WellFormed.remove (h : WellFormed g) : WellFormed (g.remove m) :=
  h.restrict h.restricts_remove h.older.erase.foldl_dropNeighbour
    h.newer.foldl_dropNeighbour.erase

/-- Removing files one after the other, in any order, comes to the same as removing them at once. -/
theorem WellFormed.foldl_remove (h : WellFormed g) :
    l.foldl Graph.remove g = g.without (.ofList l) := by
  induction l generalizing g with
  | nil =>
    refine h.ext h.without (fun n => ?_) fun n x => ?_
    · simp [node?_without]
    · simp [mem_olderThan_without]
  | cons m rest ih =>
    rw [List.foldl_cons, ih h.remove]
    refine h.remove.without.ext h.without (fun n => ?_) fun n x => ?_
    · rw [node?_without, node?_without, node?_remove]
      simp only [Std.ExtTreeSet.mem_ofList, List.contains_iff_mem, List.mem_cons]
      grind
    · rw [mem_olderThan_without, mem_olderThan_without, h.restricts_remove.older]
      simp only [Std.ExtTreeSet.mem_ofList, List.contains_iff_mem, List.mem_cons]
      grind

end Lineage.Graph
