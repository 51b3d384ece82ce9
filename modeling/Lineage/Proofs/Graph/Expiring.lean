import Lineage.Proofs.Graph.Adding
import Lineage.Graph.Expiry

/-!
# What expiry does to the graph

Expiry removes files that are asked to go and older ends of edges, and no others
(`mem_or_of_mem_expiring`): all that it is asked to remove (`mem_expiring_of_mem`), and nothing that
no edges lead to from there (`expiring_closed`). Of the edges, those between files that stay are
left (`mem_olderThan_without`), and the nodes of these stay as they are (`node?_without`).
-/

namespace Lineage.Graph

variable {g : Graph} {names names' met last expired : Names} {start : List String} {m n x : String}

/-! ## Removing files -/

theorem mem_getD_dropNames {a : Adjacency} : x ∈ (dropNames names a).getD n ∅ ↔
    x ∈ a.getD n ∅ ∧ n ∉ names ∧ x ∉ names := by
  rw [dropNames, Std.ExtTreeMap.getD_filterMap', Std.ExtTreeMap.getD_eq_getD_getElem?]
  cases hn : a[n]? with
  | none =>
    refine iff_of_false Std.ExtTreeSet.not_mem_empty fun h => ?_
    exact Std.ExtTreeSet.not_mem_empty h.1
  | some ns =>
    have hleft : x ∈ ns.filter (· ∉ names) ↔ x ∈ ns ∧ x ∉ names := by
      rw [Std.ExtTreeSet.mem_filter]
      simp only [Std.ExtTreeSet.get_eq, decide_eq_true_eq, exists_prop]
    rw [Option.bind_some, Option.getD_some]
    dsimp only
    by_cases hmem : n ∈ names
    · rw [if_pos (.inl hmem)]
      exact iff_of_false Std.ExtTreeSet.not_mem_empty fun h => h.2.1 hmem
    · cases hempty : (ns.filter (· ∉ names)).isEmpty with
      | true =>
        rw [if_pos (.inr rfl)]
        rw [Std.ExtTreeSet.isEmpty_iff] at hempty
        rw [hempty] at hleft
        refine iff_of_false Std.ExtTreeSet.not_mem_empty fun h => ?_
        exact Std.ExtTreeSet.not_mem_empty (hleft.mpr ⟨h.1, h.2.2⟩)
      | false =>
        rw [if_neg (not_or.mpr ⟨hmem, Bool.false_ne_true⟩), Option.getD_some, hleft]
        exact and_congr_right fun _ => (and_iff_right hmem).symm

theorem mem_olderThan_without :
    x ∈ (g.without names).olderThan n ↔ x ∈ g.olderThan n ∧ n ∉ names ∧ x ∉ names :=
  mem_getD_dropNames

theorem mem_newerThan_without :
    x ∈ (g.without names).newerThan n ↔ x ∈ g.newerThan n ∧ n ∉ names ∧ x ∉ names :=
  mem_getD_dropNames

theorem node?_without : (g.without names).node? n = if n ∈ names then none else g.node? n := by
  rw [node?, without, Std.ExtTreeMap.getElem?_filter', node?]
  cases g.nodes[n]? with
  | none => exact (ite_self none).symm
  | some m =>
    by_cases hn : n ∈ names
    · simp [hn]
    · simp [hn]

theorem contains_without :
    (g.without names).contains n = true ↔ g.contains n = true ∧ n ∉ names := by
  rw [contains_eq_isSome_node?, node?_without, contains_eq_isSome_node?]
  split <;> simp [*]

theorem dropNames_dropNames {a : Adjacency} :
    dropNames names' (dropNames names a) = dropNames (names ∪ names') a := by
  refine Std.ExtTreeMap.ext_getElem? fun k => ?_
  simp only [dropNames, Std.ExtTreeMap.getElem?_filterMap']
  cases a[k]? with
  | none => rfl
  | some ns =>
    have hfilter : (ns.filter (· ∉ names)).filter (· ∉ names') =
        ns.filter (· ∉ names ∪ names') := by
      refine Std.ExtTreeSet.ext_mem fun n => ?_
      simp only [Std.ExtTreeSet.mem_filter, Std.ExtTreeSet.get_eq, decide_eq_true_eq,
        Std.ExtTreeSet.mem_union_iff, exists_prop, not_or, and_assoc]
    rw [Option.bind_some, Option.bind_some]
    by_cases hgone : k ∈ names ∨ (ns.filter (· ∉ names)).isEmpty
    · rw [if_pos hgone, Option.bind_none, if_pos]
      rcases hgone with hk | hempty
      · exact .inl (Std.ExtTreeSet.mem_union_iff.mpr (.inl hk))
      · -- What is left of nothing is nothing.
        rw [Std.ExtTreeSet.isEmpty_iff] at hempty
        rw [← hfilter, hempty]
        exact .inr rfl
    · rw [if_neg hgone, Option.bind_some, hfilter]
      have hk := (not_or.mp hgone).1
      simp only [Std.ExtTreeSet.mem_union_iff, hk, false_or]

/-- Files may be removed one lot after the other. -/
theorem without_without : (g.without names).without names' = g.without (names ∪ names') := by
  have hnodes : (g.nodes.filter fun k _ => k ∉ names).filter (fun k _ => k ∉ names') =
      g.nodes.filter fun k _ => k ∉ names ∪ names' := by
    refine Std.ExtTreeMap.ext_getElem? fun k => ?_
    simp only [Std.ExtTreeMap.getElem?_filter', Option.filter_filter, Std.ExtTreeSet.mem_union_iff,
      not_or, Bool.decide_and]
  simp only [without, dropNames_dropNames, hnodes]

theorem Mirrored.without (h : g.Mirrored) : (g.without names).Mirrored := by
  intro n x
  rw [mem_newerThan_without, mem_olderThan_without, h n x]
  exact and_congr_right fun _ => and_comm

/-! ## Names that go -/

/-- Those of the files that are asked to go which are there. -/
def present (g : Graph) (start : List String) : Names := .ofList (start.filter g.contains)

theorem mem_present : n ∈ g.present start ↔ n ∈ start ∧ g.contains n = true := by
  rw [present, Std.ExtTreeSet.mem_ofList, List.contains_iff_mem, List.mem_filter]

theorem expiring_eq :
    g.expiring start = g.shrink (g.present start) (g.reach (g.present start)) := rfl

/-- In which order files are asked to go, or how often, does not matter. -/
theorem expiring_congr {start' : List String} (h : ∀ n, n ∈ start ↔ n ∈ start') :
    g.expiring start = g.expiring start' := by
  have hpresent : g.present start = g.present start' := by
    refine Std.ExtTreeSet.ext_mem fun n => ?_
    rw [mem_present, mem_present, h]
  rw [expiring_eq, expiring_eq, hpresent]

theorem mem_of_mem_reachFrom {fuel : Nat} (h : n ∈ g.reachFrom fuel met last) :
    n ∈ met ∨ ∃ m, n ∈ g.olderThan m := by
  induction fuel generalizing met last with
  | zero => exact .inl h
  | succ fuel ih =>
    rw [reachFrom] at h
    split at h
    · exact .inl h
    · rcases ih h with hm | hm
      · rw [Std.ExtTreeSet.mem_union_iff] at hm
        rcases hm with hm | hm
        · exact .inl hm
        · rw [Std.ExtTreeSet.mem_filter] at hm
          obtain ⟨hm, -⟩ := hm
          obtain ⟨k, -, hk⟩ := mem_olderThanAny.mp hm
          exact .inr ⟨k, hk⟩
      · exact .inr hm

theorem mem_of_mem_shrink (h : n ∈ g.shrink expired names) : n ∈ names := by
  induction names using shrink.induct g expired with
  | case1 names hlt ih =>
    rw [shrink, if_pos hlt] at h
    have hn := ih h
    rw [removableOf, Std.ExtTreeSet.mem_filter] at hn
    exact hn.1
  | case2 names hlt =>
    rwa [shrink, if_neg hlt] at h

theorem mem_or_of_mem_expiring (h : n ∈ g.expiring start) :
    n ∈ start ∨ ∃ m, n ∈ g.olderThan m := by
  rw [expiring_eq] at h
  rcases mem_of_mem_reachFrom (mem_of_mem_shrink h) with hn | hn
  · exact .inl (mem_present.mp hn).1
  · exact .inr hn

/-! ## Names that have to go, and names that stay -/

theorem mem_reachFrom_of_mem {fuel : Nat} (h : n ∈ met) : n ∈ g.reachFrom fuel met last := by
  induction fuel generalizing met last with
  | zero => exact h
  | succ fuel ih =>
    rw [reachFrom]
    split
    · exact h
    · exact ih (Std.ExtTreeSet.mem_union_iff.mpr (.inl h))

theorem mem_shrink_of_mem (he : n ∈ expired) (hn : n ∈ names) : n ∈ g.shrink expired names := by
  induction names using shrink.induct g expired with
  | case1 names hlt ih =>
    rw [shrink, if_pos hlt]
    apply ih
    rw [removableOf, Std.ExtTreeSet.mem_filter]
    refine ⟨hn, ?_⟩
    rw [removable, Std.ExtTreeSet.get_eq, decide_eq_true he]
    rfl
  | case2 names hlt =>
    rwa [shrink, if_neg hlt]

/-- Files that are asked to go do go, if they are there. -/
theorem mem_expiring_of_mem (h : n ∈ start) (hn : g.contains n = true) :
    n ∈ g.expiring start := by
  have hexpired : n ∈ g.present start := mem_present.mpr ⟨h, hn⟩
  rw [expiring_eq]
  exact mem_shrink_of_mem hexpired (mem_reachFrom_of_mem hexpired)

section
variable {P : String → Prop}

theorem reachFrom_closed {fuel : Nat} (hP : ∀ m, P m → ∀ x ∈ g.olderThan m, P x)
    (hmet : ∀ m ∈ met, P m) (hlast : ∀ m ∈ last, P m) (h : n ∈ g.reachFrom fuel met last) :
    P n := by
  induction fuel generalizing met last with
  | zero => exact hmet n h
  | succ fuel ih =>
    rw [reachFrom] at h
    split at h
    · exact hmet n h
    · have hfound : ∀ m ∈ (g.olderThanAny last).filter (· ∉ met), P m := by
        intro m hm
        rw [Std.ExtTreeSet.mem_filter] at hm
        obtain ⟨hm, -⟩ := hm
        obtain ⟨k, hk, hkm⟩ := mem_olderThanAny.mp hm
        exact hP k (hlast k hk) m hkm
      refine ih (fun m hm => ?_) hfound h
      exact (Std.ExtTreeSet.mem_union_iff.mp hm).elim (hmet m) (hfound m)

/-- Where no edge leads from files of a kind to one of another kind, and only files of the first
kind are asked to go, no others do. -/
theorem expiring_closed (hP : ∀ m, P m → ∀ x ∈ g.olderThan m, P x) (hstart : ∀ m ∈ start, P m)
    (h : n ∈ g.expiring start) : P n := by
  have hexpired : ∀ m ∈ g.present start, P m := fun m hm => hstart m (mem_present.mp hm).1
  rw [expiring_eq] at h
  exact reachFrom_closed hP hexpired hexpired (mem_of_mem_shrink h)

end

/-- Files that are not there do not expire. -/
theorem expiring_eq_empty (h : ∀ n ∈ start, g.contains n = false) : g.expiring start = ∅ := by
  have hpresent : ∀ m ∈ g.present start, False := by
    intro m hm
    obtain ⟨hm, hcontains⟩ := mem_present.mp hm
    exact Bool.false_ne_true ((h m hm).symm.trans hcontains)
  refine Std.ExtTreeSet.ext_mem fun n =>
    iff_of_false (fun hn => ?_) Std.ExtTreeSet.not_mem_empty
  rw [expiring_eq] at hn
  exact reachFrom_closed (P := fun _ => False) (fun _ hm => hm.elim) hpresent hpresent
    (mem_of_mem_shrink hn)

end Lineage.Graph
