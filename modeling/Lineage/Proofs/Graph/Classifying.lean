import Mathlib.Data.List.Chain
import Mathlib.Logic.Relation
import Lineage.Proofs.Graph.Orders

/-!
# What a comparison of snapshots meets in the graph

A walk from the files of a later snapshot skips what another walk has classified before, so its
course depends on the order of the files; what it comes to does not. `Graph.Met` says which files
that are: those of the later snapshot that the earlier one lacks, and whatever `Graph.Onward` steps
lead to from there. A classification that is given splits exactly these, whatever the order
(`Outcome.classifies`), and where none is given some steps lead through as many levels as were
allowed (`WalksAll.exists_leads`).
-/

namespace Lineage.Graph

variable {g : Graph} {later earlier : Names} {generation : UInt64} {n x : String}

/-- A walk goes on from a file to an older one that the earlier snapshot lacks. -/
def Onward (g : Graph) (earlier : Names) (generation : UInt64) (n x : String) : Prop :=
  g.expandable generation n = true ∧ x ∈ g.olderThan n ∧ x ∉ earlier

/-- The files that walks from a later snapshot meet and the earlier one lacks. -/
def Met (g : Graph) (later earlier : Names) (generation : UInt64) (n : String) : Prop :=
  ∃ m ∈ later, m ∉ earlier ∧ Relation.ReflTransGen (g.Onward earlier generation) m n

/-- The files of the earlier snapshot that a walk meets right behind some file. -/
def Borders (g : Graph) (earlier : Names) (generation : UInt64) (n x : String) : Prop :=
  g.expandable generation n = true ∧ x ∈ g.olderThan n ∧ x ∈ earlier

theorem Met.onward (h : g.Met later earlier generation n)
    (hx : g.Onward earlier generation n x) : g.Met later earlier generation x := by
  obtain ⟨m, hm, hme, hmn⟩ := h
  exact ⟨m, hm, hme, hmn.tail hx⟩

theorem Met.not_mem_earlier (h : g.Met later earlier generation n) : n ∉ earlier := by
  obtain ⟨m, hm, hme, hmn⟩ := h
  cases hmn with
  | refl => exact hme
  | tail _ hx => exact hx.2.2

/-! ## The parts of a walk -/

section
variable {c : Classification} {next : Names}

theorem mentions_iff : c.mentions n = true ↔ n ∈ c.same ∨ n ∈ c.different := by
  simp [Classification.mentions]

/-- The older neighbours of a file are classified if the earlier snapshot has them, and else to be
gone on with, unless they are classified already. -/
theorem visitOlder_spec (earlier : Names) (c : Classification) (next : Names) (l : List String) :
    (visitOlder earlier (c, next) l).1.different = c.different ∧
    (∀ x, x ∈ (visitOlder earlier (c, next) l).1.same ↔
      x ∈ c.same ∨ x ∈ l ∧ x ∈ earlier ∧ x ∉ c.different) ∧
    (∀ x, x ∈ (visitOlder earlier (c, next) l).2 ↔
      x ∈ next ∨ x ∈ l ∧ x ∉ earlier ∧ x ∉ c.same ∧ x ∉ c.different) := by
  induction l generalizing c next with
  | nil => simp [visitOlder]
  | cons y rest ih =>
    rw [visitOlder]
    split
    · rename_i hm
      rw [mentions_iff] at hm
      obtain ⟨hd, hs, hn⟩ := ih c next
      refine ⟨hd, fun x => ?_, fun x => ?_⟩
      · rw [hs]; grind
      · rw [hn]; grind
    · rename_i hm
      rw [mentions_iff] at hm
      split
      · rename_i hy
        obtain ⟨hd, hs, hn⟩ := ih (c.addSame y) next
        refine ⟨hd, fun x => ?_, fun x => ?_⟩
        · rw [hs]
          simp only [Classification.addSame, Std.ExtTreeSet.mem_insert, Std.compare_eq_iff_eq]
          grind
        · rw [hn]
          simp only [Classification.addSame, Std.ExtTreeSet.mem_insert, Std.compare_eq_iff_eq]
          grind
      · rename_i hy
        obtain ⟨hd, hs, hn⟩ := ih c (next.insert y)
        refine ⟨hd, fun x => ?_, fun x => ?_⟩
        · rw [hs]; grind
        · rw [hn]
          simp only [Std.ExtTreeSet.mem_insert, Std.compare_eq_iff_eq]
          grind

/-- How a classification grows by the files of some list: what may be added to it, and what has to
be. `next` are the files to go on with. -/
structure Extends (g : Graph) (earlier : Names) (generation : UInt64) (level : List String)
    (c c' : Classification) (next next' : Names) : Prop where
  same_mono : ∀ x ∈ c.same, x ∈ c'.same
  different_mono : ∀ x ∈ c.different, x ∈ c'.different
  next_mono : ∀ x ∈ next, x ∈ next'
  of_same : ∀ x ∈ c'.same, x ∈ c.same ∨ ∃ n ∈ level, g.Borders earlier generation n x
  of_different : ∀ x ∈ c'.different,
    x ∈ c.different ∨ x ∈ level ∧ g.expandable generation x = false
  of_next : ∀ x ∈ next', x ∈ next ∨ ∃ n ∈ level, g.Onward earlier generation n x
  stops : ∀ n ∈ level, g.expandable generation n = false → n ∈ c'.different
  expands : ∀ n ∈ level, g.expandable generation n = true → ∀ x ∈ g.olderThan n,
    x ∈ c'.same ∨ x ∈ c'.different ∨ x ∉ earlier ∧ x ∈ next'

/-- Taking in some files and then some more. -/
theorem Extends.append {l l' : List String} {c₁ c₂ : Classification} {next₁ next₂ : Names}
    (h : g.Extends earlier generation l c c₁ next next₁)
    (h' : g.Extends earlier generation l' c₁ c₂ next₁ next₂) :
    g.Extends earlier generation (l ++ l') c c₂ next next₂ where
  same_mono x hx := h'.same_mono x (h.same_mono x hx)
  different_mono x hx := h'.different_mono x (h.different_mono x hx)
  next_mono x hx := h'.next_mono x (h.next_mono x hx)
  of_same x hx := by
    rcases h'.of_same x hx with hx | ⟨n, hn, hx⟩
    · exact (h.of_same x hx).imp_right fun ⟨n, hn, hx⟩ => ⟨n, List.mem_append_left _ hn, hx⟩
    · exact .inr ⟨n, List.mem_append_right _ hn, hx⟩
  of_different x hx := by
    rcases h'.of_different x hx with hx | ⟨hn, hx⟩
    · exact (h.of_different x hx).imp_right fun ⟨hn, hx⟩ => ⟨List.mem_append_left _ hn, hx⟩
    · exact .inr ⟨List.mem_append_right _ hn, hx⟩
  of_next x hx := by
    rcases h'.of_next x hx with hx | ⟨n, hn, hx⟩
    · exact (h.of_next x hx).imp_right fun ⟨n, hn, hx⟩ => ⟨n, List.mem_append_left _ hn, hx⟩
    · exact .inr ⟨n, List.mem_append_right _ hn, hx⟩
  stops n hn hexp := by
    rcases List.mem_append.mp hn with hn | hn
    · exact h'.different_mono n (h.stops n hn hexp)
    · exact h'.stops n hn hexp
  expands n hn hexp x hx := by
    rcases List.mem_append.mp hn with hn | hn
    · exact (h.expands n hn hexp x hx).imp (h'.same_mono x)
        (Or.imp (h'.different_mono x) (And.imp_right (h'.next_mono x)))
    · exact h'.expands n hn hexp x hx

theorem extends_addDifferent (hn : g.expandable generation n = false) :
    g.Extends earlier generation [n] c (c.addDifferent n) next next := by
  constructor <;> simp [Classification.addDifferent] <;> grind

theorem extends_visitOlder {older : List String} (hn : g.expandable generation n = true)
    (ho : Enumerates older (g.olderThan n)) :
    g.Extends earlier generation [n] c (visitOlder earlier (c, next) older).1
      next (visitOlder earlier (c, next) older).2 := by
  obtain ⟨hd, hs, hx⟩ := visitOlder_spec earlier c next older
  simp only [ho.mem_iff] at hs hx
  constructor
  · exact fun x h => (hs x).mpr (.inl h)
  · exact fun x h => hd ▸ h
  · exact fun x h => (hx x).mpr (.inl h)
  · intro x h
    exact ((hs x).mp h).imp_right fun h => ⟨n, List.mem_singleton_self n, hn, h.1, h.2.1⟩
  · exact fun x h => .inl (hd ▸ h)
  · intro x h
    exact ((hx x).mp h).imp_right fun h => ⟨n, List.mem_singleton_self n, hn, h.1, h.2.1⟩
  · intro m hm hexp
    rw [List.mem_singleton.mp hm, hn] at hexp
    contradiction
  · intro m hm _ x hxm
    rw [List.mem_singleton.mp hm] at hxm
    rw [hs, hx, hd]
    grind

theorem VisitsLevel.extends {s s' : Classification × Names} {level : List String}
    (h : g.VisitsLevel earlier generation s level s') :
    g.Extends earlier generation level s.1 s'.1 s.2 s'.2 := by
  induction h with
  | nil => constructor <;> simp
  | expand goes order _ ih => exact (extends_visitOlder goes order).append ih
  | stop stays _ ih => exact (extends_addDifferent stays).append ih

end

/-! ## Walks -/

/-- Everything a classification holds is where it should be. -/
structure Sound (g : Graph) (later earlier : Names) (generation : UInt64)
    (c : Classification) : Prop where
  same : ∀ x ∈ c.same, x ∈ earlier ∧
    (x ∈ later ∨ ∃ n, g.Met later earlier generation n ∧ g.Borders earlier generation n x)
  different : ∀ x ∈ c.different,
    g.Met later earlier generation x ∧ g.expandable generation x = false

/-- Everything that walks from a file come to is classified. -/
def Covers (g : Graph) (earlier : Names) (generation : UInt64) (c : Classification)
    (n : String) : Prop :=
  ∀ x, Relation.ReflTransGen (g.Onward earlier generation) n x →
    (g.expandable generation x = false → x ∈ c.different) ∧
    ∀ y, g.Borders earlier generation x y → y ∈ c.same

/-- One classification holds all that another one does. -/
structure Grows (c c' : Classification) : Prop where
  same : ∀ x ∈ c.same, x ∈ c'.same
  different : ∀ x ∈ c.different, x ∈ c'.different

variable {c c' : Classification}

theorem Grows.trans {c'' : Classification} (h : Grows c c') (h' : Grows c' c'') : Grows c c'' :=
  ⟨fun x hx => h'.same x (h.same x hx), fun x hx => h'.different x (h.different x hx)⟩

theorem Extends.grows {level : List String} {next next' : Names}
    (h : g.Extends earlier generation level c c' next next') : Grows c c' :=
  ⟨h.same_mono, h.different_mono⟩

theorem Covers.mono (h : g.Covers earlier generation c n) (hc : Grows c c') :
    g.Covers earlier generation c' n := fun x hx =>
  ⟨fun he => hc.different x ((h x hx).1 he), fun y hy => hc.same y ((h x hx).2 y hy)⟩

/-- A walk does not go on from a file that is no output or too old. -/
theorem covers_of_not_expandable (hn : g.expandable generation n = false)
    (hd : n ∈ c.different) : g.Covers earlier generation c n := by
  intro x hx
  rcases hx.cases_head with rfl | ⟨y, hy, -⟩
  · exact ⟨fun _ => hd, fun y hy => absurd hy.1 (Bool.eq_false_iff.mp hn)⟩
  · exact absurd hy.1 (Bool.eq_false_iff.mp hn)

theorem Sound.extends {level : List String} {next : Names} (hc : g.Sound later earlier generation c)
    (h : g.Extends earlier generation level c c' ∅ next)
    (hl : ∀ n ∈ level, g.Met later earlier generation n) :
    g.Sound later earlier generation c' ∧ ∀ x ∈ next, g.Met later earlier generation x := by
  refine ⟨⟨fun x hx => ?_, fun x hx => ?_⟩, fun x hx => ?_⟩
  · rcases h.of_same x hx with hx | ⟨n, hn, hx⟩
    · exact hc.same x hx
    · exact ⟨hx.2.2, .inr ⟨n, hl n hn, hx⟩⟩
  · rcases h.of_different x hx with hx | ⟨hn, hx⟩
    · exact hc.different x hx
    · exact ⟨hl x hn, hx⟩
  · rcases h.of_next x hx with hx | ⟨n, hn, hx⟩
    · exact (Std.ExtTreeSet.not_mem_empty hx).elim
    · exact (hl n hn).onward hx

/-- The files to go on with are come to from those of the level. -/
theorem Extends.exists_onward {level l : List String} {next : Names}
    (h : g.Extends earlier generation level c c' ∅ next) (order : Enumerates l next) (hx : x ∈ l) :
    ∃ n ∈ level, g.Onward earlier generation n x :=
  (h.of_next x (order.mem_iff.mp hx)).resolve_left Std.ExtTreeSet.not_mem_empty

/-- A walk that comes to an end leaves nothing unclassified that it leads to. -/
theorem Walks.spec {left : Nat} {level : List String}
    (h : g.Walks earlier generation left c level (some c'))
    (hc : g.Sound later earlier generation c)
    (hl : ∀ n ∈ level, g.Met later earlier generation n) :
    g.Sound later earlier generation c' ∧ Grows c c' ∧
      ∀ n ∈ level, g.Covers earlier generation c' n := by
  generalize hr : some c' = r at h
  induction h with
  | done =>
    cases hr
    exact ⟨hc, ⟨fun _ => id, fun _ => id⟩, by simp⟩
  | exceeded => cases hr
  | @level left c c₁ next n rest l r visits order _ ih =>
    have hv := visits.extends
    generalize n :: rest = level at hl hv ⊢
    obtain ⟨hs, hnext⟩ := hc.extends hv hl
    obtain ⟨hs', hg, hcov⟩ := ih hs (fun m hm => hnext m (order.mem_iff.mp hm)) hr
    refine ⟨hs', hv.grows.trans hg, fun m hm => ?_⟩
    cases hexp : g.expandable generation m with
    | false =>
      exact (covers_of_not_expandable hexp (hv.stops m hm hexp)).mono hg
    | true =>
      -- Whatever is older is classified on this level or walked from on the next one.
      have hold : ∀ x ∈ g.olderThan m, x ∈ c₁.same ∨ g.Covers earlier generation c' x := by
        intro x hx
        rcases hv.expands m hm hexp x hx with hx | hx | ⟨-, hx⟩
        · exact .inl hx
        · exact .inr ((covers_of_not_expandable (hs.different x hx).2 hx).mono hg)
        · exact .inr (hcov x (order.mem_iff.mpr hx))
      intro x hx
      rcases hx.cases_head with rfl | ⟨y, hy, hyx⟩
      · refine ⟨fun he => by simp [hexp] at he, fun y hy => ?_⟩
        rcases hv.expands _ hm hexp y hy.2.1 with hy' | hy' | ⟨hy', -⟩
        · exact hg.same y hy'
        · exact absurd hy.2.2 (hs.different y hy').1.not_mem_earlier
        · exact absurd hy.2.2 hy'
      · rcases hold y hy.2.1 with hy' | hy'
        · exact absurd (hs.same y hy').1 hy.2.2
        · exact hy' x hyx

theorem expandable_of_not_contains (h : g.contains n = false) :
    g.expandable generation n = false := by
  simp only [contains, Std.ExtTreeMap.contains_eq_isSome_getElem?] at h
  cases hn : g.nodes[n]? <;> simp_all [expandable, node?]

theorem contains_of_expandable (h : g.expandable generation n = true) : g.contains n = true := by
  cases hn : g.contains n with
  | true => rfl
  | false => rw [expandable_of_not_contains hn] at h; contradiction

theorem grows_addDifferent : Grows c (c.addDifferent n) :=
  ⟨fun _ => id, fun x hx => by simp [Classification.addDifferent, hx]⟩

/-- A file of the later snapshot alone that no compaction names. -/
theorem Sound.addDifferent (hc : g.Sound later earlier generation c)
    (hn : g.Met later earlier generation n) (hcon : g.contains n = false) :
    g.Sound later earlier generation (c.addDifferent n) := by
  refine ⟨hc.same, fun x hx => ?_⟩
  simp only [Classification.addDifferent, Std.ExtTreeSet.mem_insert, Std.compare_eq_iff_eq] at hx
  rcases hx with rfl | hx
  · exact ⟨hn, expandable_of_not_contains hcon⟩
  · exact hc.different x hx

/-- What holds of walks from the given files one after the other, if it holds of each: what they find
is sound all the time, and a file is walked from only if the earlier snapshot lacks it. -/
theorem WalksAll.sound_induction {levels : Nat} {names : List String} {r : Option Classification}
    {P : Classification → List String → Option Classification → Prop}
    (h : g.WalksAll earlier generation levels c names r)
    (hc : g.Sound later earlier generation c) (hl : ∀ n ∈ names, n ∈ later)
    (hs : ∀ n ∈ later, n ∈ earlier → n ∈ c.same)
    (done : ∀ c, g.Sound later earlier generation c → P c [] (some c))
    (held : ∀ c n rest r, n ∈ earlier → P c rest r → P c (n :: rest) r)
    (unknown : ∀ c n rest r, g.Met later earlier generation n → g.contains n = false →
      P (c.addDifferent n) rest r → P c (n :: rest) r)
    (walked : ∀ c c' n rest r, g.Sound later earlier generation c →
      g.Met later earlier generation n → g.Walks earlier generation levels c [n] (some c') →
      P c' rest r → P c (n :: rest) r)
    (exceeded : ∀ c n rest, g.Sound later earlier generation c → g.Met later earlier generation n →
      g.contains n = true → g.Walks earlier generation levels c [n] none → P c (n :: rest) none) :
    P c names r := by
  have met {c : Classification} {n : String} (hn : n ∈ later) (new : n ∉ c.same)
      (hs : ∀ n ∈ later, n ∈ earlier → n ∈ c.same) : g.Met later earlier generation n :=
    ⟨n, hn, fun he => new (hs n hn he), .refl⟩
  induction h with
  | done => exact done _ hc
  | held hn _ ih =>
    rw [List.forall_mem_cons] at hl
    exact held _ _ _ _ (hc.same _ hn).1 (ih hc hl.2 hs)
  | unknown new hn _ ih =>
    rw [List.forall_mem_cons] at hl
    have hmet := met hl.1 new hs
    exact unknown _ _ _ _ hmet hn (ih (hc.addDifferent hmet hn) hl.2 hs)
  | walked new _ walk _ ih =>
    rw [List.forall_mem_cons] at hl
    have hmet := met hl.1 new hs
    obtain ⟨hc', hg, -⟩ := walk.spec hc (by simpa using hmet)
    exact walked _ _ _ _ _ hc hmet walk (ih hc' hl.2 fun m hm he => hg.same m (hs m hm he))
  | exceeded new hn walk =>
    rw [List.forall_mem_cons] at hl
    exact exceeded _ _ _ hc (met hl.1 new hs) hn walk

theorem WalksAll.spec {levels : Nat} {names : List String}
    (h : g.WalksAll earlier generation levels c names (some c'))
    (hc : g.Sound later earlier generation c) (hl : ∀ n ∈ names, n ∈ later)
    (hs : ∀ n ∈ later, n ∈ earlier → n ∈ c.same) :
    g.Sound later earlier generation c' ∧ Grows c c' ∧
      ∀ n ∈ names, n ∉ earlier → g.Covers earlier generation c' n := by
  refine h.sound_induction (P := fun c names r => ∀ c', r = some c' →
    g.Sound later earlier generation c' ∧ Grows c c' ∧
      ∀ n ∈ names, n ∉ earlier → g.Covers earlier generation c' n) hc hl hs ?_ ?_ ?_ ?_ ?_ c' rfl
  · intro c hc c' hr
    cases hr
    exact ⟨hc, ⟨fun _ => id, fun _ => id⟩, by simp⟩
  · intro c n rest r hn ih c' hr
    obtain ⟨hc', hg, hcov⟩ := ih c' hr
    exact ⟨hc', hg, List.forall_mem_cons.mpr ⟨fun he => absurd hn he, hcov⟩⟩
  · intro c n rest r _ hn ih c' hr
    obtain ⟨hc', hg, hcov⟩ := ih c' hr
    refine ⟨hc', grows_addDifferent.trans hg, List.forall_mem_cons.mpr ⟨fun _ => ?_, hcov⟩⟩
    exact covers_of_not_expandable (expandable_of_not_contains hn)
      (hg.different n (by simp [Classification.addDifferent]))
  · intro c c₁ n rest r hc hn walk ih c' hr
    obtain ⟨-, hg₁, hcov₁⟩ := walk.spec hc (by simpa using hn)
    obtain ⟨hc', hg, hcov⟩ := ih c' hr
    refine ⟨hc', hg₁.trans hg, List.forall_mem_cons.mpr ⟨fun _ => ?_, hcov⟩⟩
    exact (hcov₁ n (List.mem_singleton_self n)).mono hg
  · intro c n rest _ _ _ _ c' hr
    cases hr

/-! ## Classifications -/

/-- A classification of exactly what walks from a later snapshot come to. -/
structure Classifies (g : Graph) (later earlier : Names) (generation : UInt64)
    (c : Classification) : Prop where
  different : ∀ x, x ∈ c.different ↔
    g.Met later earlier generation x ∧ g.expandable generation x = false
  same : ∀ x, x ∈ c.same ↔ x ∈ earlier ∧
    (x ∈ later ∨ ∃ n, g.Met later earlier generation n ∧ g.Borders earlier generation n x)

theorem mem_same_starting : n ∈ (starting later earlier).same ↔ n ∈ later ∧ n ∈ earlier := by
  simp only [starting, Std.ExtTreeSet.mem_filter, Std.ExtTreeSet.get_eq, decide_eq_true_eq,
    exists_prop]

theorem sound_starting : g.Sound later earlier generation (starting later earlier) :=
  ⟨fun _ hx => ⟨(mem_same_starting.mp hx).2, .inl (mem_same_starting.mp hx).1⟩,
    fun _ hx => (Std.ExtTreeSet.not_mem_empty hx).elim⟩

theorem WalksAll.classifies {levels : Nat} {names : List String}
    (h : g.WalksAll earlier generation levels (starting later earlier) names (some c))
    (hl : Enumerates names later) : g.Classifies later earlier generation c := by
  obtain ⟨hs, hg, hcov⟩ := h.spec sound_starting (fun n hn => hl.mem_iff.mp hn)
    fun n hn he => mem_same_starting.mpr ⟨hn, he⟩
  refine ⟨fun x => ⟨hs.different x, fun hx => ?_⟩, fun x => ⟨hs.same x, fun hx => ?_⟩⟩
  · obtain ⟨⟨m, hm, hme, hmx⟩, hexp⟩ := hx
    exact (hcov m (hl.mem_iff.mpr hm) hme x hmx).1 hexp
  · obtain ⟨hxe, hx | ⟨n, ⟨m, hm, hme, hmn⟩, hn⟩⟩ := hx
    · exact hg.same x (mem_same_starting.mpr ⟨hx, hxe⟩)
    · exact (hcov m (hl.mem_iff.mpr hm) hme n hmn).2 x hn

variable {maxLevels : Nat}

/-- Whatever the order, a classification that is given is the one of what walks come to. -/
theorem Outcome.classifies (h : g.Outcome later earlier generation maxLevels (.ok c)) :
    g.Classifies later earlier generation c := by
  cases h with
  | classified order walks => exact walks.classifies order

theorem classifies_of_classify (h : g.classify later earlier generation maxLevels = .ok c) :
    g.Classifies later earlier generation c :=
  Outcome.classifies (h ▸ outcome_classify)

/-! ## Levels -/

/-- So many steps of a walk lead from one file to another. -/
inductive Leads (g : Graph) (earlier : Names) (generation : UInt64) : Nat → String → String → Prop where
  | refl {n : String} : Leads g earlier generation 0 n n
  | step {n y x : String} {steps : Nat} (first : g.Onward earlier generation n y)
      (rest : Leads g earlier generation steps y x) : Leads g earlier generation (steps + 1) n x

theorem Leads.exists_chain {steps : Nat} (h : g.Leads earlier generation steps n x) :
    ∃ p, (n :: p).IsChain (g.Onward earlier generation) ∧ p.length = steps := by
  induction h with
  | refl => exact ⟨[], .singleton _, rfl⟩
  | @step n y x steps first _ ih =>
    obtain ⟨p, hp, hlen⟩ := ih
    exact ⟨y :: p, .cons_cons first hp, congrArg (· + 1) hlen⟩

theorem Leads.reflTransGen {steps : Nat} (h : g.Leads earlier generation steps n x) :
    Relation.ReflTransGen (g.Onward earlier generation) n x := by
  induction h with
  | refl => exact .refl
  | step first _ ih => exact .head first ih

/-- A walk that comes to no end has gone on for as many steps as it was allowed to. -/
theorem Walks.exists_leads {left : Nat} {level : List String}
    (h : g.Walks earlier generation left c level none) :
    ∃ n ∈ level, ∃ x, g.Leads earlier generation left n x := by
  generalize hr : none = r at h
  induction h with
  | done => cases hr
  | @exceeded _ n _ => exact ⟨n, List.mem_cons_self, n, .refl⟩
  | @level left c c₁ next n rest l r visits order _ ih =>
    obtain ⟨y, hy, x, hx⟩ := ih hr
    obtain ⟨m, hm, hmy⟩ := visits.extends.exists_onward order hy
    exact ⟨m, hm, x, .step hmy hx⟩

theorem WalksAll.exists_leads {levels : Nat} {names : List String}
    (h : g.WalksAll earlier generation levels c names none)
    (hc : g.Sound later earlier generation c) (hl : ∀ n ∈ names, n ∈ later)
    (hs : ∀ n ∈ later, n ∈ earlier → n ∈ c.same) :
    ∃ n ∈ names, n ∉ earlier ∧ g.contains n = true ∧ ∃ x, g.Leads earlier generation levels n x := by
  refine h.sound_induction (P := fun _ names r => r = none → ∃ n ∈ names, n ∉ earlier ∧
    g.contains n = true ∧ ∃ x, g.Leads earlier generation levels n x) hc hl hs ?_ ?_ ?_ ?_ ?_ rfl
  · intro c _ hr
    cases hr
  · exact fun _ _ _ _ _ ih hr => List.exists_mem_cons_of_exists (ih hr)
  · exact fun _ _ _ _ _ _ ih hr => List.exists_mem_cons_of_exists (ih hr)
  · exact fun _ _ _ _ _ _ _ _ ih hr => List.exists_mem_cons_of_exists (ih hr)
  · intro c n rest _ hmet hn walk _
    obtain ⟨m, hm, hx⟩ := walk.exists_leads
    rw [List.mem_singleton.mp hm] at hx
    exact ⟨n, List.mem_cons_self, hmet.not_mem_earlier, hn, hx⟩

/-- A classification is given if no chain of files is as long as the levels allowed. -/
theorem Outcome.exists_ok {r : Except Nat Classification}
    (h : g.Outcome later earlier generation maxLevels r)
    (hp : ∀ n ∈ later, n ∉ earlier → g.contains n = true → ∀ p,
      (n :: p).IsChain (g.Onward earlier generation) → p.length + 1 < maxLevels) :
    ∃ c, r = .ok c := by
  cases h with
  | @classified l c order walks => exact ⟨c, rfl⟩
  | exceeded order walks =>
    obtain ⟨n, hn, hne, hcon, x, hx⟩ := walks.exists_leads sound_starting
      (fun n hn => order.mem_iff.mp hn) fun n hn he => mem_same_starting.mpr ⟨hn, he⟩
    obtain ⟨p, hchain, hlen⟩ := hx.exists_chain
    have := hp n (order.mem_iff.mp hn) hne hcon p hchain
    omega

theorem exists_classify_eq_ok (h : ∀ n ∈ later, n ∉ earlier → ∀ p,
    (n :: p).IsChain (g.Onward earlier generation) → p.length + 1 < maxLevels) :
    ∃ c, g.classify later earlier generation maxLevels = .ok c :=
  outcome_classify.exists_ok fun n hn hne _ => h n hn hne

end Lineage.Graph
