import Lineage.Proofs.Graph.Agreement

/-!
# Levels that suffice in some orders only

Where the longest walks just come to the levels allowed (`Grazes`), an order decides. A walk exceeds
the levels if of each level the file on the way to its last one is taken first (`walks_exceeded`),
and none does if those are taken first that lead no further (`exists_walks`). So two comparisons of
the same snapshots can differ just there (`grazes_iff`).
-/

namespace Lineage.Graph

variable {g : Graph} {later earlier : Names} {generation : UInt64} {maxLevels left steps : Nat}
  {c c' : Classification} {n x : String} {level l rest before : List String}

/-! ## Walks that exceed the levels -/

theorem exists_enumerates_cons {names : Names} (h : n ∈ names) :
    ∃ l, Enumerates (n :: l) names :=
  ⟨names.toList.erase n, (List.perm_cons_erase (Std.ExtTreeSet.mem_toList.mpr h)).symm⟩

/-- What the first file of a level leads on to is gone on with, unless it is classified already. -/
theorem VisitsLevel.mem_next {s s' : Classification × Names}
    (h : g.VisitsLevel earlier generation s (n :: rest) s') (hx : g.Onward earlier generation n x)
    (hsame : x ∉ s.1.same) (hdifferent : x ∉ s.1.different) : x ∈ s'.2 := by
  obtain ⟨c, next⟩ := s
  cases h with
  | expand _ order more =>
    refine more.extends.next_mono x (((visitOlder_spec earlier c next _).2.2 x).mpr (.inr ?_))
    exact ⟨order.mem_iff.mpr hx.2.1, hx.2.2, hsame, hdifferent⟩
  | stop stays _ => exact absurd hx.1 (Bool.eq_false_iff.mp stays)

/-- A walk that comes to a file at the end of its levels, and not two or more levels before, can
exceed them. -/
theorem walks_exceeded (hc : g.Sound later earlier generation c)
    (hl : ∀ m ∈ n :: rest, g.Met later earlier generation m)
    (hx : g.Leads earlier generation left n x) (hnew : 0 < left → x ∉ c.different)
    (hfar : ∀ fewer, fewer + 1 < left → ∀ m ∈ n :: rest, ¬ g.Leads earlier generation fewer m x) :
    g.Walks earlier generation left c (n :: rest) none := by
  induction hx generalizing c rest with
  | refl => exact .exceeded
  | @step n y x left first more ih =>
    replace hnew := hnew (Nat.succ_pos _)
    obtain ⟨c₁, next, visits⟩ :
        ∃ c₁ next, g.VisitsLevel earlier generation (c, ∅) (n :: rest) (c₁, next) :=
      ⟨_, _, visitsLevel_visitLevel _ _⟩
    have hv := visits.extends
    obtain ⟨hs, hnext⟩ := hc.extends hv hl
    have hy : y ∈ next := by
      refine visits.mem_next first (fun hy => first.2.2 (hc.same y hy).1) fun hy => ?_
      cases more with
      | refl => exact hnew hy
      | step again _ => exact Bool.eq_false_iff.mp (hc.different y hy).2 again.1
    obtain ⟨l, order⟩ := exists_enumerates_cons hy
    refine .level visits order (ih hs (fun m hm => hnext m (order.mem_iff.mp hm))
      (fun hleft hd => ?_) fun fewer hfewer z hz hzx => ?_)
    · rcases hv.of_different x hd with hd | ⟨hd, -⟩
      · exact hnew hd
      · exact hfar 0 (Nat.succ_lt_succ hleft) x hd .refl
    · obtain ⟨m, hm, hmz⟩ := hv.exists_onward order hz
      exact hfar (fewer + 1) (Nat.succ_lt_succ hfewer) m hm (.step hmz hzx)

/-! ## Walks within the levels -/

/-- Of the files of a level, those that lead no further are taken first. -/
def StopsFirst (g : Graph) (generation : UInt64) (level : List String) : Prop :=
  level.Pairwise fun n m => g.expandable generation n = true → g.expandable generation m = true

theorem exists_stopsFirst (g : Graph) (generation : UInt64) (names : Names) :
    ∃ l, Enumerates l names ∧ g.StopsFirst generation l := by
  refine ⟨_, List.filter_append_perm (fun n => !g.expandable generation n) names.toList, ?_⟩
  refine List.pairwise_append.mpr ⟨?_, ?_, fun n hn m hm => ?_⟩
  · exact List.pairwise_filter.mpr (List.pairwise_of_forall fun n m hn _ hexp => by
      rw [hexp] at hn
      contradiction)
  · refine List.pairwise_filter.mpr (List.pairwise_of_forall fun n m _ hm _ => ?_)
    rwa [Bool.not_not] at hm
  · intro _
    have hm := (List.mem_filter.mp hm).2
    rwa [Bool.not_not] at hm

/-- If the files that lead no further are taken first, nothing is gone on with that is one of
them. -/
theorem VisitsLevel.fresh_of_stopsFirst {s s' : Classification × Names}
    (h : g.VisitsLevel earlier generation s level s') (hl : g.StopsFirst generation level) :
    ∀ x ∈ s'.2, x ∈ s.2 ∨
      x ∉ s.1.different ∧ (x ∈ level → g.expandable generation x = true) := by
  induction h with
  | nil => exact fun x hx => .inl hx
  | expand goes order more =>
    intro x hx
    refine (VisitsLevel.fresh (.expand goes order more) x hx).imp_right fun hd => ⟨hd, fun hx => ?_⟩
    rcases List.mem_cons.mp hx with rfl | hx
    · exact goes
    · exact (List.pairwise_cons.mp hl).1 x hx goes
  | @stop c next s' n rest _ _ ih =>
    intro x hx
    refine (ih (List.pairwise_cons.mp hl).2 x hx).imp_right fun ⟨hd, hexp⟩ => ?_
    refine ⟨fun hx => hd (grows_addDifferent.different x hx), fun hx => hexp ?_⟩
    refine (List.mem_cons.mp hx).resolve_left fun hn => hd ?_
    rw [hn]
    exact Std.ExtTreeSet.mem_insert_self

/-- Whatever is so many steps away from some files leads no further, and is classified already or
fewer steps away from one of them. -/
def Sooner (g : Graph) (earlier : Names) (generation : UInt64) (left : Nat) (c : Classification)
    (level : List String) : Prop :=
  ∀ n ∈ level, ∀ x, g.Leads earlier generation left n x → g.expandable generation x = false ∧
    (x ∈ c.different ∨ ∃ m ∈ level, ∃ fewer < left, g.Leads earlier generation fewer m x)

/-- It is so of the files to go on with, with one step less. -/
theorem Sooner.next {next : Names} (h : g.Sooner earlier generation (left + 1) c level)
    (hv : g.Extends earlier generation level c c' ∅ next) (hs : g.Sound later earlier generation c')
    (order : Enumerates l next) : g.Sooner earlier generation left c' l := by
  intro y hy x hyx
  obtain ⟨n, hn, hny⟩ := hv.exists_onward order hy
  obtain ⟨hstay, hx | ⟨m, hm, fewer, hfewer, hmx⟩⟩ := h n hn x (.step hny hyx)
  · exact ⟨hstay, .inl (hv.different_mono x hx)⟩
  refine ⟨hstay, ?_⟩
  cases fewer with
  | zero =>
    cases hmx
    exact .inl (hv.stops _ hm hstay)
  | succ fewer =>
    refine (hv.leads hs order hm hmx).imp_right fun ⟨z, hz, hzx⟩ => ?_
    exact ⟨z, hz, fewer, Nat.lt_of_succ_lt_succ hfewer, hzx⟩

/-- With one step left there is nothing to go on with if the files that lead no further are taken
first. -/
theorem Sooner.eq_nil {next : Names} (h : g.Sooner earlier generation 1 c level)
    (visits : g.VisitsLevel earlier generation (c, ∅) level (c', next))
    (hfirst : g.StopsFirst generation level) (order : Enumerates l next) : l = [] := by
  refine List.eq_nil_iff_forall_not_mem.mpr fun y hy => ?_
  obtain ⟨n, hn, hny⟩ := visits.extends.exists_onward order hy
  rcases visits.fresh_of_stopsFirst hfirst y (order.mem_iff.mp hy) with hy | ⟨hnew, hexp⟩
  · exact Std.ExtTreeSet.not_mem_empty hy
  obtain ⟨hstay, hd | ⟨m, hm, fewer, hfewer, hmy⟩⟩ := h n hn y (.step hny .refl)
  · exact hnew hd
  · cases Nat.lt_one_iff.mp hfewer
    cases hmy
    rw [hexp hm] at hstay
    contradiction

/-- A walk can come to an end within its levels if all files at the end of them are met before. -/
theorem exists_walks (hc : g.Sound later earlier generation c)
    (hl : ∀ n ∈ level, g.Met later earlier generation n) (hfirst : g.StopsFirst generation level)
    (hleft : left = 0 → level = []) (hsooner : g.Sooner earlier generation left c level) :
    ∃ c', g.Walks earlier generation left c level (some c') := by
  induction left generalizing c level with
  | zero =>
    rw [hleft rfl]
    exact ⟨c, .done⟩
  | succ left ih =>
    obtain ⟨c₁, next, visits⟩ :
        ∃ c₁ next, g.VisitsLevel earlier generation (c, ∅) level (c₁, next) :=
      ⟨_, _, visitsLevel_visitLevel _ _⟩
    have hv := visits.extends
    obtain ⟨hs, hnext⟩ := hc.extends hv hl
    obtain ⟨l, order, hfirst'⟩ := g.exists_stopsFirst generation next
    have hempty : left = 0 → l = [] := by
      rintro rfl
      exact hsooner.eq_nil visits hfirst order
    obtain ⟨c', walk⟩ := ih hs (fun m hm => hnext m (order.mem_iff.mp hm)) hfirst' hempty
      (hsooner.next hv hs order)
    cases level with
    | nil => exact ⟨c, .done⟩
    | cons n rest => exact ⟨c', .level visits order walk⟩

/-- Walks from some files in their order can all come to an end if the files at the end of the levels
of each are met before, on the walk or on one before it. -/
theorem exists_walksAll (hsteps : 0 < steps) (hlater : ∀ n ∈ l, n ∈ later)
    (hagain : ∀ before m after, l = before ++ m :: after → m ∉ earlier →
      ∀ x, g.Leads earlier generation steps m x → g.expandable generation x = false ∧
        ∃ m' ∈ before ++ [m], m' ∉ earlier ∧ ∃ fewer < steps, g.Leads earlier generation fewer m' x)
    (hsplit : l = before ++ rest) (hc : g.Sound later earlier generation c)
    (hs : ∀ n ∈ later, n ∈ earlier → n ∈ c.same)
    (hcovers : ∀ m ∈ before, m ∉ earlier → g.Covers earlier generation c m) :
    ∃ c', g.WalksAll earlier generation steps c rest (some c') := by
  induction rest generalizing before c with
  | nil => exact ⟨c, .done⟩
  | cons n rest ih =>
    have hsplit' : l = (before ++ [n]) ++ rest := by rw [hsplit, List.append_assoc]; rfl
    have hn : n ∈ later := hlater n (hsplit ▸ List.mem_append_right _ List.mem_cons_self)
    have hmore {c₁ : Classification} (hg : Grows c c₁)
        (hcov : n ∉ earlier → g.Covers earlier generation c₁ n) :
        ∀ m ∈ before ++ [n], m ∉ earlier → g.Covers earlier generation c₁ m := by
      intro m hm hme
      rcases List.mem_append.mp hm with hm | hm
      · exact (hcovers m hm hme).mono hg
      · rw [List.mem_singleton.mp hm] at hme ⊢
        exact hcov hme
    by_cases held : n ∈ c.same
    · have hne : n ∈ earlier := (hc.same n held).1
      obtain ⟨c', walks⟩ := ih hsplit' hc hs (hmore ⟨fun _ => id, fun _ => id⟩ (absurd hne))
      exact ⟨c', .held held walks⟩
    have hne : n ∉ earlier := fun he => held (hs n hn he)
    have hmet : g.Met later earlier generation n := ⟨n, hn, hne, .refl⟩
    cases hcon : g.contains n with
    | false =>
      have hcov : g.Covers earlier generation (c.addDifferent n) n :=
        covers_of_not_expandable (expandable_of_not_contains hcon) Std.ExtTreeSet.mem_insert_self
      obtain ⟨c', walks⟩ := ih hsplit' (hc.addDifferent hmet hcon) hs
        (hmore grows_addDifferent fun _ => hcov)
      exact ⟨c', .unknown held hcon walks⟩
    | true =>
      have hsooner : g.Sooner earlier generation steps c [n] := by
        intro k hk x hx
        rw [List.mem_singleton.mp hk] at hx
        obtain ⟨hstay, m, hm, hme, fewer, hfewer, hmx⟩ := hagain before n rest hsplit hne x hx
        refine ⟨hstay, ?_⟩
        rcases List.mem_append.mp hm with hm | hm
        · exact .inl ((hcovers m hm hme x hmx.reflTransGen).1 hstay)
        · exact .inr ⟨m, hm, fewer, hfewer, hmx⟩
      obtain ⟨c₁, walk⟩ := exists_walks hc (by simpa using hmet) (List.pairwise_singleton _ n)
        (fun h => absurd h (Nat.ne_of_gt hsteps)) hsooner
      obtain ⟨hc₁, hg, hcov⟩ := walk.spec hc (by simpa using hmet)
      obtain ⟨c', walks⟩ := ih hsplit' hc₁ (fun m hm he => hg.same m (hs m hm he))
        (hmore hg fun _ => hcov n (List.mem_singleton_self n))
      exact ⟨c', .walked held hcon walk walks⟩

/-! ## Both in some order -/

/-- Where the longest walks just come to the levels allowed, one order gives a classification and
another one does not. -/
theorem Grazes.outcomes (h : g.Grazes later earlier generation (maxLevels - 1)) :
    ∃ c, g.Outcome later earlier generation maxLevels (.ok c) ∧
      g.Outcome later earlier generation maxLevels (.error maxLevels) := by
  obtain ⟨⟨m, hm, hme, x, hx, hfar⟩, l, order, hagain⟩ := h
  have hlevels : 0 < maxLevels - 1 := by
    obtain ⟨before, after, hl⟩ := List.append_of_mem (order.mem_iff.mpr hm)
    obtain ⟨-, m', -, -, fewer, hfewer, -⟩ := hagain before m after hl hme x hx
    exact Nat.lt_of_le_of_lt (Nat.zero_le _) hfewer
  have held : ∀ n ∈ later, n ∈ earlier → n ∈ (starting later earlier).same :=
    fun n hn he => mem_same_starting.mpr ⟨hn, he⟩
  obtain ⟨c, walks⟩ := exists_walksAll hlevels (fun n hn => order.mem_iff.mp hn) hagain rfl
    sound_starting held (fun m hm => absurd hm List.not_mem_nil)
  obtain ⟨l', order'⟩ := exists_enumerates_cons hm
  have hcon : g.contains m = true := by
    generalize maxLevels - 1 = steps at hx hlevels
    cases hx with
    | refl => exact absurd hlevels (Nat.lt_irrefl 0)
    | step first _ => exact contains_of_expandable first.1
  have hmet : g.Met later earlier generation m := ⟨m, hm, hme, .refl⟩
  have walk : g.Walks earlier generation (maxLevels - 1) (starting later earlier) [m] none :=
    walks_exceeded sound_starting (by simpa using hmet) hx
      (fun _ => Std.ExtTreeSet.not_mem_empty) (by simpa using hfar)
  have hmax : max maxLevels 1 = maxLevels := by omega
  have hexceeded : g.Outcome later earlier generation maxLevels (.error (max maxLevels 1)) :=
    .exceeded order' (.exceeded (fun hsame => hme (mem_same_starting.mp hsame).2) hcon walk)
  rw [hmax] at hexceeded
  exact ⟨c, .classified order walks, hexceeded⟩

/-- Two orders come to something else just where the longest walks come to the levels allowed. -/
theorem grazes_iff : g.Grazes later earlier generation (maxLevels - 1) ↔
    ∃ r r', g.Outcome later earlier generation maxLevels r ∧
      g.Outcome later earlier generation maxLevels r' ∧ r ≠ r' := by
  constructor
  · intro h
    obtain ⟨c, given, exceeded⟩ := h.outcomes
    exact ⟨_, _, given, exceeded, nofun⟩
  · rintro ⟨r, r', h, h', hne⟩
    cases h with
    | classified order walks =>
      cases h' with
      | classified order' walks' =>
        exact absurd (congrArg _ ((walks.classifies order).unique (walks'.classifies order'))) hne
      | exceeded order' walks' => exact (grazes_of_walksAll order walks order' walks').2
    | exceeded order walks =>
      cases h' with
      | classified order' walks' => exact (grazes_of_walksAll order' walks' order walks).2
      | exceeded => exact absurd rfl hne

end Lineage.Graph
