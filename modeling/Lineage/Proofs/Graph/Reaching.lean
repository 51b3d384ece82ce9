import Mathlib.Data.Finset.Card
import Mathlib.Data.List.Chain
import Mathlib.Logic.Relation
import Lineage.Proofs.Graph.Expiring

/-!
# What expiry takes

From the files that are asked to go, expiry comes to all that edges lead to (`mem_reach`), and of
these it leaves the ones that something outside leads to without coming through a file that is asked
to go. What is left out round by round are just these (`mem_expiring_iff`).
-/

namespace Lineage.Graph

open Relation (ReflTransGen)

variable {g : Graph} {names met met' last expired : Names} {start p : List String}
  {m n x : String}

/-- An edge leads from a file to an older one. -/
def Edge (g : Graph) (n x : String) : Prop := x ∈ g.olderThan n

/-- Edges lead to a file from one that is asked to go and is there. -/
def Reached (g : Graph) (start : List String) (x : String) : Prop :=
  ∃ n ∈ start, g.contains n = true ∧ ReflTransGen g.Edge n x

theorem Reached.edge (h : g.Reached start n) (hx : g.Edge n x) : g.Reached start x := by
  obtain ⟨f, hf, hcon, hfn⟩ := h
  exact ⟨f, hf, hcon, hfn.tail hx⟩

theorem reached_of_mem (h : n ∈ g.present start) : g.Reached start n := by
  obtain ⟨hn, hcon⟩ := mem_present.mp h
  exact ⟨n, hn, hcon, .refl⟩

/-! ## How many files are still to be met -/

theorem length_edges : g.edges.length = g.edgeCount := by
  have length_foldl (l : List (String × Names)) (k : Nat) :
      l.foldl (fun k e => k + e.2.size) k =
        k + (l.flatMap fun e => e.2.toList.map (e.1, ·)).length := by
    induction l generalizing k with
    | nil => rfl
    | cons e rest ih =>
      rw [List.foldl_cons, ih, List.flatMap_cons, List.length_append, List.length_map,
        Std.ExtTreeSet.length_toList, Nat.add_assoc]
  rw [edgeCount, Std.ExtTreeMap.foldl_eq_foldl_toList, length_foldl, Nat.zero_add]
  rfl

/-- The older ends of edges that were not met. -/
def unmet (g : Graph) (met : Names) : Finset String :=
  (g.edges.map Prod.snd).toFinset.filter (· ∉ met)

theorem mem_unmet : x ∈ g.unmet met ↔ (∃ n, g.Edge n x) ∧ x ∉ met := by
  simp [unmet, mem_edges, Edge]

theorem card_unmet_le : (g.unmet met).card ≤ g.edgeCount := by
  calc
    (g.unmet met).card ≤ (g.edges.map Prod.snd).toFinset.card := Finset.card_filter_le _ _
    _ ≤ (g.edges.map Prod.snd).length := List.toFinset_card_le _
    _ = g.edgeCount := by rw [List.length_map, length_edges]

theorem card_unmet_lt (hmet : ∀ n ∈ met, n ∈ met') (hx : g.Edge n x) (hnew : x ∉ met)
    (hx' : x ∈ met') : (g.unmet met').card < (g.unmet met).card := by
  apply Finset.card_lt_card
  rw [Finset.ssubset_iff_of_subset]
  · exact ⟨x, mem_unmet.mpr ⟨⟨n, hx⟩, hnew⟩, fun h => (mem_unmet.mp h).2 hx'⟩
  · intro y hy
    obtain ⟨hedge, hy⟩ := mem_unmet.mp hy
    exact mem_unmet.mpr ⟨hedge, fun h => hy (hmet y h)⟩

/-! ## What is reached -/

/-- With enough rounds left, all that edges lead to is met. -/
theorem reachFrom_edge {fuel : Nat} (hfuel : (g.unmet met).card < fuel)
    (hlast : ∀ n ∈ last, n ∈ met) (hmet : ∀ n ∈ met, n ∉ last → ∀ x, g.Edge n x → x ∈ met)
    (hn : n ∈ g.reachFrom fuel met last) (hx : g.Edge n x) : x ∈ g.reachFrom fuel met last := by
  induction fuel generalizing met last with
  | zero => exact absurd hfuel (Nat.not_lt_zero _)
  | succ fuel ih =>
    have mem_found {y : String} : y ∈ (g.olderThanAny last).filter (· ∉ met) ↔
        (∃ n ∈ last, g.Edge n y) ∧ y ∉ met := by
      rw [Std.ExtTreeSet.mem_filter]
      simp only [mem_olderThanAny, Edge, Std.ExtTreeSet.get_eq, decide_eq_true_eq, exists_prop]
    have met_or_found {k y : String} (hk : k ∈ met) (hy : g.Edge k y) :
        y ∈ met ∨ y ∈ (g.olderThanAny last).filter (· ∉ met) := by
      by_cases hl : k ∈ last
      · by_cases hym : y ∈ met
        · exact .inl hym
        · exact .inr (mem_found.mpr ⟨⟨k, hl, hy⟩, hym⟩)
      · exact .inl (hmet k hk hl y hy)
    rw [reachFrom] at hn ⊢
    generalize (g.olderThanAny last).filter (· ∉ met) = found at mem_found met_or_found hn ⊢
    cases hempty : found.isEmpty with
    | true =>
      rw [if_pos hempty] at hn
      rw [if_pos rfl]
      rw [Std.ExtTreeSet.isEmpty_iff] at hempty
      exact (met_or_found hn hx).resolve_right fun h => Std.ExtTreeSet.not_mem_empty (hempty ▸ h)
    | false =>
      rw [if_neg (Bool.eq_false_iff.mp hempty)] at hn
      rw [if_neg Bool.false_ne_true]
      refine ih ?_ ?_ ?_ hn
      · obtain ⟨y, hy⟩ := isEmpty_eq_false_iff_exists.mp hempty
        obtain ⟨⟨k, -, hky⟩, hnew⟩ := mem_found.mp hy
        have hlt := card_unmet_lt (fun z hz => Std.ExtTreeSet.mem_union_iff.mpr (.inl hz)) hky hnew
          (Std.ExtTreeSet.mem_union_iff.mpr (.inr hy))
        omega
      · intro y hy
        exact Std.ExtTreeSet.mem_union_iff.mpr (.inr hy)
      · intro k hk hnot y hy
        rw [Std.ExtTreeSet.mem_union_iff] at hk ⊢
        exact met_or_found (hk.resolve_right hnot) hy

theorem mem_reach : x ∈ g.reach (g.present start) ↔ g.Reached start x := by
  constructor
  · intro hx
    have hstart : ∀ n ∈ g.present start, g.Reached start n := fun n hn => reached_of_mem hn
    exact reachFrom_closed (fun n hn y hy => hn.edge hy) hstart hstart hx
  · rintro ⟨n, hn, hcon, hnx⟩
    induction hnx with
    | refl => exact mem_reachFrom_of_mem (mem_present.mpr ⟨hn, hcon⟩)
    | tail _ hx ih =>
      refine reachFrom_edge ?_ (fun _ h => h) (fun _ h hnot => absurd h hnot) ih hx
      exact Nat.lt_succ_of_le card_unmet_le

/-! ## What is left out -/

/-- A way along edges, as the files on it. -/
structure Route (g : Graph) (m x : String) (p : List String) : Prop where
  first : p.head? = some m
  last : p.getLast? = some x
  edges : p.IsChain g.Edge

theorem route_singleton : g.Route n n [n] := ⟨rfl, rfl, .singleton n⟩

theorem Route.concat (h : g.Route m n p) (hx : g.Edge n x) : g.Route m x (p ++ [x]) where
  first := by rw [List.head?_append, h.first, Option.some_or]
  last := by rw [List.getLast?_append, List.getLast?_singleton, Option.some_or]
  edges := by
    refine h.edges.append (.singleton x) fun a ha b hb => ?_
    rw [h.last] at ha
    cases ha
    cases hb
    exact hx

/-- A file that edges lead to from those that are asked to go; whatever else leads to it comes
through one of them. -/
structure Unneeded (g : Graph) (start : List String) (x : String) : Prop where
  reached : g.Reached start x
  through : ∀ m p, g.Route m x p → ¬ g.Reached start m → ∃ f ∈ p, f ∈ start ∧ g.contains f = true

theorem unneeded_of_mem (h : x ∈ g.present start) : g.Unneeded start x where
  reached := reached_of_mem h
  through _ _ hp _ := ⟨x, List.mem_of_getLast? hp.last, mem_present.mp h⟩

/-- What leads to an unneeded file that is not asked to go is unneeded too. -/
theorem Unneeded.newer (h : g.Unneeded start x) (hx : x ∉ g.present start) (he : g.Edge n x) :
    g.Unneeded start n := by
  have through (m : String) (p : List String) (hp : g.Route m n p) (hm : ¬ g.Reached start m) :
      ∃ f ∈ p, f ∈ start ∧ g.contains f = true := by
    obtain ⟨f, hf, hfs⟩ := h.through m (p ++ [x]) (hp.concat he) hm
    rcases List.mem_append.mp hf with hf | hf
    · exact ⟨f, hf, hfs⟩
    · rw [List.mem_singleton.mp hf] at hfs
      exact absurd (mem_present.mpr hfs) hx
  refine ⟨Classical.byContradiction fun hn => ?_, through⟩
  obtain ⟨f, hf, hfs⟩ := through n [n] route_singleton hn
  rw [List.mem_singleton.mp hf] at hfs
  exact hn (reached_of_mem (mem_present.mpr hfs))

theorem removable_iff : g.removable expired names x = true ↔
    x ∈ expired ∨ ∀ n ∈ g.newerThan x, n ∈ names := by
  simp [removable, Std.ExtTreeSet.mem_toList]

/-- Where no unneeded file was left out, none is next. -/
theorem Unneeded.removable (h : g.Unneeded start x) (hg : g.Mirrored)
    (hnames : ∀ n, g.Unneeded start n → n ∈ names) :
    g.removable (g.present start) names x = true := by
  rw [removable_iff]
  by_cases hx : x ∈ g.present start
  · exact .inl hx
  · exact .inr fun n hn => hnames n (h.newer hx ((hg n x).mp hn))

/-- Where all files may go that are left, a way to one of them from elsewhere comes through a file
that is asked to go. -/
theorem exists_present_of_route (hg : g.Mirrored)
    (hnames : ∀ n ∈ names, g.removable (g.present start) names n = true) (hp : g.Route m x p)
    (hm : m ∉ names) (hx : x ∈ names) : ∃ f ∈ p, f ∈ g.present start := by
  induction p generalizing m with
  | nil => cases hp.first
  | cons a p ih =>
    cases hp.first
    cases p with
    | nil =>
      cases hp.last
      exact absurd hx hm
    | cons b p =>
      have hedges := hp.edges
      rw [List.isChain_cons_cons] at hedges
      by_cases hb : b ∈ names
      · -- A newer file than `b` stays, so `b` has to go.
        refine ⟨b, by simp, (removable_iff.mp (hnames b hb)).resolve_right fun hall => ?_⟩
        exact hm (hall a ((hg a b).mpr hedges.1))
      · have hrest : g.Route b x (b :: p) :=
          ⟨rfl, by rw [← hp.last, List.getLast?_cons_cons], hedges.2⟩
        obtain ⟨f, hf, hfs⟩ := ih hrest hb
        exact ⟨f, List.mem_cons_of_mem a hf, hfs⟩

/-- Where all files may go that are left, they are unneeded. -/
theorem unneeded_of_removable (hg : g.Mirrored) (hreached : ∀ n ∈ names, g.Reached start n)
    (hnames : ∀ n ∈ names, g.removable (g.present start) names n = true) (hx : x ∈ names) :
    g.Unneeded start x where
  reached := hreached x hx
  through m p hp hm := by
    have hnot : m ∉ names := fun h => hm (hreached m h)
    obtain ⟨f, hf, hfs⟩ := exists_present_of_route hg hnames hp hnot hx
    exact ⟨f, hf, mem_present.mp hfs⟩

theorem removable_of_mem_shrink (h : n ∈ g.shrink expired names) :
    g.removable expired (g.shrink expired names) n = true := by
  induction names using shrink.induct g expired with
  | case1 names hlt ih =>
    rw [shrink, if_pos hlt] at h ⊢
    exact ih h
  | case2 names hlt =>
    rw [shrink, if_neg hlt] at h ⊢
    have hsize : (g.removableOf expired names).size = names.size :=
      Nat.le_antisymm Std.ExtTreeSet.size_filter_le_size (Nat.le_of_not_lt hlt)
    have hall := Std.ExtTreeSet.size_filter_eq_size_iff.mp hsize n h
    rwa [Std.ExtTreeSet.get_eq] at hall

theorem mem_shrink_of_unneeded (h : g.Unneeded start n) (hg : g.Mirrored)
    (hnames : ∀ n, g.Unneeded start n → n ∈ names) : n ∈ g.shrink (g.present start) names := by
  induction names using shrink.induct g (g.present start) with
  | case1 names hlt ih =>
    rw [shrink, if_pos hlt]
    apply ih
    intro m hm
    rw [removableOf, Std.ExtTreeSet.mem_filter]
    exact ⟨hnames m hm, by rw [Std.ExtTreeSet.get_eq]; exact hm.removable hg hnames⟩
  | case2 names hlt =>
    rw [shrink, if_neg hlt]
    exact hnames n h

/-- Expiry takes the files that are unneeded, and no others. -/
theorem mem_expiring_iff (hg : g.Mirrored) : n ∈ g.expiring start ↔ g.Unneeded start n := by
  rw [expiring_eq]
  constructor
  · exact unneeded_of_removable hg (fun n hn => mem_reach.mp (mem_of_mem_shrink hn))
      fun n hn => removable_of_mem_shrink hn
  · intro h
    exact mem_shrink_of_unneeded h hg fun n hn => mem_reach.mpr hn.reached

end Lineage.Graph
