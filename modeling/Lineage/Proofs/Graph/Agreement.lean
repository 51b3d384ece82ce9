import Mathlib.Order.Bounds.Basic
import Lineage.Proofs.Graph.Classifying

/-!
# How much the order of a walk matters

In whatever order files are taken, a classification that is given is the same one: of the least set of
files that is closed under walking, those that lead no further differ (`exactly_classified`). Whether
one is given does not depend on the order either, unless the levels allowed are just as many as the
longest walks take (`Outcome.eq_or_grazes`). Then it matters whether the last file of such a walk
was met before, on a shorter one: a file that is classified is not walked to again
(`not_same_outcome_forked`). Two orders do differ there (`Proofs/Graph/Grazing`).
-/

namespace Lineage.Sample

/-- The graph with one more compaction, of some files into others. -/
def replace (g : Graph) (inputs outputs : List String) (generation : UInt64) : Graph :=
  g.add (inputs.map fun n => { name := n }) (outputs.map fun n => { name := n }) generation

/-- The file `x` was split into `a` and `m`, and `m` became `b`. -/
def forked : Graph := replace (replace {} ["x"] ["a", "m"] 1) ["m"] ["b"] 2

/-- Besides, `p` and `q` each replaced the other. -/
def looped : Graph := replace (replace forked ["p"] ["q"] 3) ["q"] ["p"] 4

def names (l : List String) : Names := .ofList l

end Lineage.Sample

namespace Lineage.Graph

open Sample (forked looped names)

variable {g : Graph} {later earlier : Names} {generation : UInt64} {maxLevels : Nat}
  {c c' : Classification} {n x : String} {r r' : Except Nat Classification}

/-! ## What is classified -/

/-- A set of files has those of the later snapshot that the earlier one lacks, and with a file that
walks go on from the older ones that the earlier snapshot lacks. -/
structure Closed (g : Graph) (later earlier : Names) (generation : UInt64) (W : Set String) :
    Prop where
  start : ∀ m ∈ later, m ∉ earlier → m ∈ W
  onward : ∀ n ∈ W, g.expandable generation n = true → ∀ x ∈ g.olderThan n, x ∉ earlier → x ∈ W

theorem isLeast_met : IsLeast {W | g.Closed later earlier generation W}
    {n | g.Met later earlier generation n} := by
  refine ⟨⟨fun m hm hme => ⟨m, hm, hme, .refl⟩, fun n hn hexp x hx hxe => ?_⟩, fun W hW n hn => ?_⟩
  · exact Met.onward hn ⟨hexp, hx, hxe⟩
  · obtain ⟨m, hm, hme, hmn⟩ := hn
    induction hmn with
    | refl => exact hW.start m hm hme
    | tail _ hx ih => exact hW.onward _ ih hx.1 _ hx.2.1 hx.2.2

/-- Different are, of the files that are met, just those that lead no further; the same are the files
that both snapshots have, and those of the earlier one that are come to from a file which is met and
leads further. -/
theorem exactly_classified (h : g.Outcome later earlier generation maxLevels (.ok c)) :
    IsLeast {W | g.Closed later earlier generation W} {n | g.Met later earlier generation n} ∧
    (∀ x, x ∈ c.different ↔ g.Met later earlier generation x ∧ g.expandable generation x = false) ∧
    (∀ x, x ∈ c.same ↔ x ∈ later ∧ x ∈ earlier ∨ x ∈ earlier ∧
      ∃ n, g.Met later earlier generation n ∧ g.expandable generation n = true ∧
        x ∈ g.olderThan n) ∧
    (∀ x ∈ c.same, x ∈ earlier) ∧ ∀ x ∈ c.different, x ∉ earlier := by
  have hc := h.classifies
  refine ⟨isLeast_met, hc.different, fun x => ?_, fun x hx => ((hc.same x).mp hx).1, fun x hx => ?_⟩
  · rw [hc.same]
    constructor
    · rintro ⟨hxe, hx | ⟨n, hn, hexp, hx, -⟩⟩
      · exact .inl ⟨hx, hxe⟩
      · exact .inr ⟨hxe, n, hn, hexp, hx⟩
    · rintro (⟨hx, hxe⟩ | ⟨hxe, n, hn, hexp, hx⟩)
      · exact ⟨hxe, .inl hx⟩
      · exact ⟨hxe, .inr ⟨n, hn, hexp, hx, hxe⟩⟩
  · exact ((hc.different x).mp hx).1.not_mem_earlier

/-- From `a` the walk comes to `x`, and from `b` to `m`, which the earlier snapshot has. -/
theorem exactly_classified_looped :
    looped.Outcome (names ["a", "b", "k"]) (names ["k", "m"]) 1 9
      (.ok ⟨names ["k", "m"], names ["x"]⟩) ∧
    (∀ x, x ∈ names ["x"] ↔ looped.Met (names ["a", "b", "k"]) (names ["k", "m"]) 1 x ∧
      looped.expandable 1 x = false) ∧ ∀ x ∈ names ["x"], x ∉ names ["k", "m"] := by
  have hc : looped.classify (names ["a", "b", "k"]) (names ["k", "m"]) 1 9 =
      .ok ⟨names ["k", "m"], names ["x"]⟩ := by decide +kernel
  have ho : looped.Outcome (names ["a", "b", "k"]) (names ["k", "m"]) 1 9
      (.ok ⟨names ["k", "m"], names ["x"]⟩) := hc ▸ outcome_classify
  obtain ⟨-, hdifferent, -, -, hlacked⟩ := exactly_classified ho
  exact ⟨ho, hdifferent, hlacked⟩

theorem Classifies.unique (h : g.Classifies later earlier generation c)
    (h' : g.Classifies later earlier generation c') : c = c' := by
  obtain ⟨same, different⟩ := c
  obtain ⟨same', different'⟩ := c'
  have hsame : same = same' :=
    Std.ExtTreeSet.ext_mem fun x => (h.same x).trans (h'.same x).symm
  have hdifferent : different = different' :=
    Std.ExtTreeSet.ext_mem fun x => (h.different x).trans (h'.different x).symm
  rw [hsame, hdifferent]

/-! ## How far walks go -/

section
variable {left levels steps : Nat} {level names rest : List String}

theorem Walks.pos (h : g.Walks earlier generation left c (n :: rest) (some c')) : 0 < left := by
  cases h
  exact Nat.succ_pos _

/-- What so many steps from a level lead to is classified with it, or is one step fewer away from a
file to go on with. -/
theorem Extends.leads {l : List String} {next : Names}
    (h : g.Extends earlier generation level c c' ∅ next) (hs : g.Sound later earlier generation c')
    (order : Enumerates l next) (hn : n ∈ level) (hx : g.Leads earlier generation (steps + 1) n x) :
    x ∈ c'.different ∨ ∃ y ∈ l, g.Leads earlier generation steps y x := by
  cases hx with
  | @step _ y _ _ first more =>
    rcases h.expands n hn first.1 y first.2.1 with hy | hy | ⟨-, hy⟩
    · exact absurd (hs.same y hy).1 first.2.2
    · -- The file leads no further, so the steps end there.
      cases more with
      | refl => exact .inl hy
      | step again _ => exact absurd again.1 (Bool.eq_false_iff.mp (hs.different y hy).2)
    · exact .inr ⟨y, order.mem_iff.mpr hy, more⟩

/-- A file that a walk would go on from is never classified, and so never left out: a walk that comes
to an end has not come to one in as many steps as it was allowed. -/
theorem Walks.stops (h : g.Walks earlier generation left c level (some c'))
    (hc : g.Sound later earlier generation c)
    (hl : ∀ n ∈ level, g.Met later earlier generation n) (hn : n ∈ level)
    (hx : g.Leads earlier generation left n x) : g.expandable generation x = false := by
  generalize hr : some c' = r at h
  induction h generalizing n with
  | done => exact absurd hn List.not_mem_nil
  | exceeded => cases hr
  | level visits order _ ih =>
    have hv := visits.extends
    obtain ⟨hs, hnext⟩ := hc.extends hv hl
    rcases hv.leads hs order hn hx with hx | ⟨y, hy, hyx⟩
    · exact (hs.different _ hx).2
    · exact ih hs (fun m hm => hnext m (order.mem_iff.mp hm)) hy hyx hr

/-- What a walk finds to be different is fewer steps away than it was allowed. -/
theorem Walks.near (h : g.Walks earlier generation left c level (some c')) (hx : x ∈ c'.different) :
    x ∈ c.different ∨ ∃ n ∈ level, ∃ steps < left, g.Leads earlier generation steps n x := by
  generalize hr : some c' = r at h
  induction h with
  | done =>
    cases hr
    exact .inl hx
  | exceeded => cases hr
  | level visits order _ ih =>
    have hv := visits.extends
    rcases ih hr with hx | ⟨y, hy, steps, hsteps, hyx⟩
    · rcases hv.of_different x hx with hx | ⟨hx, -⟩
      · exact .inl hx
      · exact .inr ⟨x, hx, 0, Nat.succ_pos _, .refl⟩
    · obtain ⟨m, hm, hmy⟩ := hv.exists_onward order hy
      exact .inr ⟨m, hm, steps + 1, Nat.succ_lt_succ hsteps, .step hmy hyx⟩

theorem WalksAll.stops (h : g.WalksAll earlier generation levels c names (some c'))
    (hc : g.Sound later earlier generation c) (hl : ∀ n ∈ names, n ∈ later)
    (hs : ∀ n ∈ later, n ∈ earlier → n ∈ c.same) :
    ∀ n ∈ names, n ∉ earlier → g.contains n = true → 0 < levels ∧
      ∀ x, g.Leads earlier generation levels n x → g.expandable generation x = false := by
  refine h.sound_induction (P := fun _ names r => r = some c' → ∀ n ∈ names, n ∉ earlier →
    g.contains n = true → 0 < levels ∧ ∀ x, g.Leads earlier generation levels n x →
      g.expandable generation x = false) hc hl hs ?_ ?_ ?_ ?_ ?_ rfl
  · exact fun _ _ _ _ hn => absurd hn List.not_mem_nil
  · intro c n rest r hn ih hr
    exact List.forall_mem_cons.mpr ⟨fun he _ => absurd hn he, ih hr⟩
  · intro c n rest r _ hn ih hr
    exact List.forall_mem_cons.mpr ⟨fun _ hcon => absurd hcon (Bool.eq_false_iff.mp hn), ih hr⟩
  · intro c c₁ n rest r hc hn walk ih hr
    refine List.forall_mem_cons.mpr ⟨fun _ _ => ⟨walk.pos, fun x hx => ?_⟩, ih hr⟩
    exact walk.stops hc (by simpa using hn) (List.mem_singleton_self n) hx
  · intro c n rest _ _ _ _ hr
    cases hr

theorem WalksAll.near (h : g.WalksAll earlier generation levels c names (some c'))
    (hc : g.Sound later earlier generation c) (hl : ∀ n ∈ names, n ∈ later)
    (hs : ∀ n ∈ later, n ∈ earlier → n ∈ c.same) (hlevels : 0 < levels) (hx : x ∈ c'.different) :
    x ∈ c.different ∨ ∃ n ∈ names, n ∉ earlier ∧
      ∃ steps < levels, g.Leads earlier generation steps n x := by
  refine h.sound_induction (P := fun c names r => r = some c' → x ∈ c.different ∨ ∃ n ∈ names,
    n ∉ earlier ∧ ∃ steps < levels, g.Leads earlier generation steps n x) hc hl hs ?_ ?_ ?_ ?_ ?_ rfl
  · intro c _ hr
    cases hr
    exact .inl hx
  · exact fun _ _ _ _ _ ih hr => (ih hr).imp_right List.exists_mem_cons_of_exists
  · intro c n rest r hn _ ih hr
    rcases ih hr with hx | hx
    · simp only [Classification.addDifferent, Std.ExtTreeSet.mem_insert, Std.compare_eq_iff_eq] at hx
      rcases hx with rfl | hx
      · exact .inr ⟨n, List.mem_cons_self, hn.not_mem_earlier, 0, hlevels, .refl⟩
      · exact .inl hx
    · exact .inr (List.exists_mem_cons_of_exists hx)
  · intro c c₁ n rest r _ hn walk ih hr
    rcases ih hr with hx | hx
    · rcases walk.near hx with hx | ⟨m, hm, hx⟩
      · exact .inl hx
      · rw [List.mem_singleton.mp hm] at hx
        exact .inr ⟨n, List.mem_cons_self, hn.not_mem_earlier, hx⟩
    · exact .inr (List.exists_mem_cons_of_exists hx)
  · intro c n rest _ _ _ _ hr
    cases hr

/-- What is gone on with was not classified before. -/
theorem VisitsLevel.fresh {s s' : Classification × Names}
    (h : g.VisitsLevel earlier generation s level s') :
    ∀ x ∈ s'.2, x ∈ s.2 ∨ x ∉ s.1.different := by
  induction h with
  | nil => exact fun x hx => .inl hx
  | @expand s s' n rest older _ _ _ ih =>
    obtain ⟨hd, -, hn⟩ := visitOlder_spec earlier s.1 s.2 older
    intro x hx
    rcases ih x hx with hx | hx
    · exact ((hn x).mp hx).imp_right fun h => h.2.2.2
    · exact .inr (hd ▸ hx)
  | stop _ _ ih =>
    intro x hx
    exact (ih x hx).imp_right fun hx hd => hx (grows_addDifferent.different x hd)

/-- Where a walk exceeds the levels it was allowed and could not go on behind them, it came to a file
at the end of them that it had not come to two or more levels before. -/
theorem Walks.exists_far (h : g.Walks earlier generation left c level none)
    (hc : g.Sound later earlier generation c)
    (hl : ∀ n ∈ level, g.Met later earlier generation n)
    (hstop : ∀ n ∈ level, ∀ x, g.Leads earlier generation left n x →
      g.expandable generation x = false) :
    ∃ n ∈ level, ∃ x, g.Leads earlier generation left n x ∧ (0 < left → x ∉ c.different) ∧
      ∀ fewer, fewer + 1 < left → ∀ m ∈ level, ¬ g.Leads earlier generation fewer m x := by
  generalize hr : none = r at h
  induction h with
  | done => cases hr
  | @exceeded _ n _ => exact ⟨n, List.mem_cons_self, n, .refl, nofun, nofun⟩
  | @level left c c₁ next n rest l r visits order _ ih =>
    have hv := visits.extends
    have hfresh := visits.fresh
    generalize n :: rest = level at hl hstop hv hfresh ⊢
    obtain ⟨hs, hnext⟩ := hc.extends hv hl
    obtain ⟨y, hy, x, hx, hnew, hfar⟩ := ih hs (fun m hm => hnext m (order.mem_iff.mp hm))
      (fun y hy x hx => by
        obtain ⟨n, hn, hny⟩ := hv.exists_onward order hy
        exact hstop n hn x (.step hny hx)) hr
    obtain ⟨n, hn, hny⟩ := hv.exists_onward order hy
    have hstay := hstop n hn x (.step hny hx)
    refine ⟨n, hn, x, .step hny hx, fun _ hd => ?_, fun fewer hfewer m hm hm' => ?_⟩
    · -- At the end of the levels the file is one of those to go on with.
      rcases Nat.eq_zero_or_pos left with rfl | hpos
      · cases hx
        rcases hfresh y (order.mem_iff.mp hy) with hy | hy
        · exact Std.ExtTreeSet.not_mem_empty hy
        · exact hy hd
      · exact hnew hpos (hv.different_mono x hd)
    · have hpos : 0 < left := Nat.lt_of_le_of_lt (Nat.zero_le _) (Nat.lt_of_succ_lt_succ hfewer)
      cases fewer with
      | zero =>
        cases hm'
        exact hnew hpos (hv.stops _ hm hstay)
      | succ fewer =>
        rcases hv.leads hs order hm hm' with hx | ⟨z, hz, hzx⟩
        · exact hnew hpos hx
        · exact hfar fewer (Nat.lt_of_succ_lt_succ hfewer) z hz hzx

theorem WalksAll.exists_far (h : g.WalksAll earlier generation levels c names none)
    (hc : g.Sound later earlier generation c) (hl : ∀ n ∈ names, n ∈ later)
    (hs : ∀ n ∈ later, n ∈ earlier → n ∈ c.same)
    (hstop : ∀ n ∈ names, n ∉ earlier → g.contains n = true →
      ∀ x, g.Leads earlier generation levels n x → g.expandable generation x = false) :
    ∃ n ∈ names, n ∉ earlier ∧ g.contains n = true ∧ ∃ x, g.Leads earlier generation levels n x ∧
      ∀ fewer, fewer + 1 < levels → ¬ g.Leads earlier generation fewer n x := by
  refine h.sound_induction (P := fun _ names r => r = none → (∀ n ∈ names, n ∉ earlier →
    g.contains n = true → ∀ x, g.Leads earlier generation levels n x →
      g.expandable generation x = false) → ∃ n ∈ names, n ∉ earlier ∧ g.contains n = true ∧
    ∃ x, g.Leads earlier generation levels n x ∧
      ∀ fewer, fewer + 1 < levels → ¬ g.Leads earlier generation fewer n x)
    hc hl hs ?_ ?_ ?_ ?_ ?_ rfl hstop
  · intro c _ hr
    cases hr
  · intro c n rest r _ ih hr hstop
    exact List.exists_mem_cons_of_exists (ih hr (List.forall_mem_cons.mp hstop).2)
  · intro c n rest r _ _ ih hr hstop
    exact List.exists_mem_cons_of_exists (ih hr (List.forall_mem_cons.mp hstop).2)
  · intro c c₁ n rest r _ _ _ ih hr hstop
    exact List.exists_mem_cons_of_exists (ih hr (List.forall_mem_cons.mp hstop).2)
  · intro c n rest hc hmet hn walk _ hstop
    obtain ⟨m, hm, x, hx, -, hfar⟩ := walk.exists_far hc (by simpa using hmet) (by
      simpa using (List.forall_mem_cons.mp hstop).1 hmet.not_mem_earlier hn)
    rw [List.mem_singleton.mp hm] at hx
    exact ⟨n, List.mem_cons_self, hmet.not_mem_earlier, hn, x, hx,
      fun fewer hfewer => hfar fewer hfewer n (List.mem_singleton_self n)⟩

/-- Walks from the first files of those walked from. -/
theorem WalksAll.of_append {l l' : List String}
    (h : g.WalksAll earlier generation levels c (l ++ l') (some c')) :
    ∃ c₁, g.WalksAll earlier generation levels c l (some c₁) := by
  induction l generalizing c with
  | nil => exact ⟨c, .done⟩
  | cons n l ih =>
    cases h with
    | held held more => exact (ih more).imp fun _ h => .held held h
    | unknown new unknown more => exact (ih more).imp fun _ h => .unknown new unknown h
    | walked new known walk more => exact (ih more).imp fun _ h => .walked new known walk h

end

/-! ## Two orders -/

/-- The longest walks just come to the number of steps given. Some file is as many steps away from one
of the later snapshot that the earlier one lacks, and not two or more steps nearer to it. And there
is an order of the later snapshot's files in which every file that is as many steps away from one of
them leads no further, and is fewer steps away from that one or one before it, too. -/
structure Grazes (g : Graph) (later earlier : Names) (generation : UInt64) (steps : Nat) :
    Prop where
  reached : ∃ m ∈ later, m ∉ earlier ∧ ∃ x, g.Leads earlier generation steps m x ∧
    ∀ fewer, fewer + 1 < steps → ¬ g.Leads earlier generation fewer m x
  again : ∃ l, Enumerates l later ∧ ∀ before m after, l = before ++ m :: after → m ∉ earlier →
    ∀ x, g.Leads earlier generation steps m x → g.expandable generation x = false ∧
      ∃ m' ∈ before ++ [m], m' ∉ earlier ∧ ∃ fewer < steps, g.Leads earlier generation fewer m' x

/-- Where one order gives a classification and another one does not, the longest walks just come to
the levels allowed. -/
theorem grazes_of_walksAll {levels : Nat} {l l' : List String} (order : Enumerates l later)
    (given : g.WalksAll earlier generation levels (starting later earlier) l (some c))
    (order' : Enumerates l' later)
    (exceeded : g.WalksAll earlier generation levels (starting later earlier) l' none) :
    0 < levels ∧ g.Grazes later earlier generation levels := by
  have held : ∀ n ∈ later, n ∈ earlier → n ∈ (starting later earlier).same :=
    fun n hn he => mem_same_starting.mpr ⟨hn, he⟩
  have hlater : ∀ n ∈ l, n ∈ later := fun n hn => order.mem_iff.mp hn
  have hstops := given.stops sound_starting hlater held
  obtain ⟨n, hn, hne, hcon, x, hx, hfar⟩ := exceeded.exists_far sound_starting
    (fun n hn => order'.mem_iff.mp hn) held fun n hn hne hcon =>
      (hstops n (order.mem_iff.mpr (order'.mem_iff.mp hn)) hne hcon).2
  rw [order'.mem_iff] at hn
  obtain ⟨hlevels, -⟩ := hstops n (order.mem_iff.mpr hn) hne hcon
  refine ⟨hlevels, ⟨n, hn, hne, x, hx, hfar⟩, l, order, fun before m after hl hme y hy => ?_⟩
  have hm : m ∈ l := hl ▸ List.mem_append_right _ List.mem_cons_self
  have hmcon : g.contains m = true := by
    cases hy with
    | refl => exact absurd hlevels (Nat.lt_irrefl 0)
    | step first _ => exact contains_of_expandable first.1
  have hstay := (hstops m hm hme hmcon).2 y hy
  -- The walks up to the one from this file have come to the file already.
  have hsplit : l = (before ++ [m]) ++ after := by rw [hl, List.append_assoc]; rfl
  rw [hsplit] at given
  obtain ⟨c₁, hfirst⟩ := given.of_append
  have hlater' : ∀ n ∈ before ++ [m], n ∈ later := fun n hn =>
    hlater n (hsplit ▸ List.mem_append_left _ hn)
  obtain ⟨-, -, hcovers⟩ := hfirst.spec sound_starting hlater' held
  have hy' := (hcovers m (by simp) hme y hy.reflTransGen).1 hstay
  rcases hfirst.near sound_starting hlater' held hlevels hy' with hstart | hnear
  · exact (Std.ExtTreeSet.not_mem_empty hstart).elim
  · exact ⟨hstay, hnear⟩

/-- In whatever two orders a comparison is made, it comes to the same: to the same classification, or
to the same number of levels. The one exception is where the longest walks just come to the levels
allowed; then one order may give the classification and the other one exceed the levels. -/
theorem Outcome.eq_or_grazes (h : g.Outcome later earlier generation maxLevels r)
    (h' : g.Outcome later earlier generation maxLevels r') :
    r = r' ∨ g.Grazes later earlier generation (maxLevels - 1) ∧
      ∃ c, (r = .ok c ∧ r' = .error maxLevels) ∨ (r = .error maxLevels ∧ r' = .ok c) := by
  have levels_eq (hlevels : 0 < maxLevels - 1) : max maxLevels 1 = maxLevels := by omega
  cases h with
  | @classified l c order walks =>
    cases h' with
    | classified order' walks' =>
      exact .inl (congrArg _ ((walks.classifies order).unique (walks'.classifies order')))
    | exceeded order' walks' =>
      obtain ⟨hlevels, hg⟩ := grazes_of_walksAll order walks order' walks'
      exact .inr ⟨hg, c, .inl ⟨rfl, by rw [levels_eq hlevels]⟩⟩
  | exceeded order walks =>
    cases h' with
    | @classified l' c order' walks' =>
      obtain ⟨hlevels, hg⟩ := grazes_of_walksAll order' walks' order walks
      exact .inr ⟨hg, c, .inr ⟨by rw [levels_eq hlevels], rfl⟩⟩
    | exceeded order' walks' => exact .inl rfl

/-! ### A file at the end of the levels allowed -/

theorem walkAll_forked :
    forked.walkAll ∅ 0 2 (starting (names ["a", "b"]) ∅) ["a", "b"] = some ⟨∅, names ["x"]⟩ ∧
    forked.walkAll ∅ 0 2 (starting (names ["a", "b"]) ∅) ["b", "a"] = none := by
  decide +kernel

theorem outcomes_forked : forked.Outcome (names ["a", "b"]) ∅ 0 3 (.ok ⟨∅, names ["x"]⟩) ∧
    forked.Outcome (names ["a", "b"]) ∅ 0 3 (.error 3) := by
  have ha : Enumerates ["a", "b"] (names ["a", "b"]) := by decide +kernel
  have hb : Enumerates ["b", "a"] (names ["a", "b"]) := by decide +kernel
  have hgiven : forked.Outcome (names ["a", "b"]) ∅ 0 3 _ := forked.outcome_walkAll ha
  have hexceeded : forked.Outcome (names ["a", "b"]) ∅ 0 3 _ := forked.outcome_walkAll hb
  rw [walkAll_forked.1] at hgiven
  rw [walkAll_forked.2] at hexceeded
  exact ⟨hgiven, hexceeded⟩

/-- The file `x` is as many steps away from `b` as are allowed, and fewer from `a`. -/
theorem grazes_forked : forked.Outcome (names ["a", "b"]) ∅ 0 3 (.ok ⟨∅, names ["x"]⟩) ∧
    forked.Outcome (names ["a", "b"]) ∅ 0 3 (.error 3) ∧
    forked.Grazes (names ["a", "b"]) ∅ 0 2 := by
  obtain ⟨ha, hb⟩ := outcomes_forked
  refine ⟨ha, hb, ?_⟩
  rcases ha.eq_or_grazes hb with h | h
  · cases h
  · exact h.1

/-- If `b` is walked from before `a`, the levels allowed do not suffice; they do if `a` comes first,
as `x` is then left out of the walk from `b`. -/
theorem not_same_outcome_forked :
    Enumerates ["a", "b"] (names ["a", "b"]) ∧ Enumerates ["b", "a"] (names ["a", "b"]) ∧
    forked.walkAll ∅ 0 2 (starting (names ["a", "b"]) ∅) ["a", "b"] = some ⟨∅, names ["x"]⟩ ∧
    forked.walkAll ∅ 0 2 (starting (names ["a", "b"]) ∅) ["b", "a"] = none ∧
    ¬ ∀ r r', forked.Outcome (names ["a", "b"]) ∅ 0 3 r →
      forked.Outcome (names ["a", "b"]) ∅ 0 3 r' → r = r' := by
  refine ⟨by decide +kernel, by decide +kernel, walkAll_forked.1, walkAll_forked.2, fun h => ?_⟩
  obtain ⟨ha, hb⟩ := outcomes_forked
  cases h _ _ ha hb

end Lineage.Graph
