import Lineage.Proofs.Graph.Agreement

/-!
# The levels that a comparison may take

A comparison that is under way (`Comparing`) walks from one file after the other and counts the
levels of each walk. `Comparing.Next` says what it does next, in whatever order sets are gone
through, and `Comparing.Ends` what it gives in the end. It comes to an end in any case
(`Comparing.next_wellFounded`), with one of the outcomes (`returns_iff_outcome`), and trails tell
with which: a classification is given if every trail has fewer files than there are levels, and none
is given if some trail has as many and leads on from all of them, as trails in a cycle do
(`returns_of_trails`).
-/

namespace Lineage.Graph

open Relation (ReflTransGen TransGen)
open Sample (looped names)

variable {g : Graph} {later earlier : Names} {generation : UInt64} {maxLevels : Nat}
  {c : Classification} {r : Except Nat Classification} {m n x : String} {p : List String}

/-! ## A comparison under way -/

/-- What a comparison has found, the files of the later snapshot that are still to be walked from,
and of a walk under way the number of levels taken in and the files of the next level. -/
inductive Comparing where
  | between (found : Classification) (rest : List String)
  | walking (found : Classification) (rest : List String) (taken : Nat) (level : Names)

namespace Comparing

/-- What a comparison does next. A level counts before its files are taken in. -/
inductive Next (g : Graph) (earlier : Names) (generation : UInt64) (maxLevels : Nat) :
    Comparing → Comparing → Prop where
  | held {c : Classification} {n : String} {rest : List String} (held : n ∈ c.same) :
      Next g earlier generation maxLevels (.between c (n :: rest)) (.between c rest)
  | unknown {c : Classification} {n : String} {rest : List String} (new : n ∉ c.same)
      (unknown : g.contains n = false) :
      Next g earlier generation maxLevels (.between c (n :: rest))
        (.between (c.addDifferent n) rest)
  | begin {c : Classification} {n : String} {rest : List String} (new : n ∉ c.same)
      (known : g.contains n = true) :
      Next g earlier generation maxLevels (.between c (n :: rest)) (.walking c rest 0 {n})
  | level {c c' : Classification} {n : String} {rest l : List String} {taken : Nat}
      {level next : Names} (order : Enumerates (n :: l) level) (room : taken + 1 < maxLevels)
      (visits : g.VisitsLevel earlier generation (c, ∅) (n :: l) (c', next)) :
      Next g earlier generation maxLevels (.walking c rest taken level)
        (.walking c' rest (taken + 1) next)
  | finish {c : Classification} {rest : List String} {taken : Nat} {level : Names}
      (order : Enumerates [] level) :
      Next g earlier generation maxLevels (.walking c rest taken level) (.between c rest)

/-- What a comparison gives in the end: what was found, or the number of the level that is one too
many. -/
inductive Ends (maxLevels : Nat) : Comparing → Except Nat Classification → Prop where
  | classified {c : Classification} : Ends maxLevels (.between c []) (.ok c)
  | exceeded {c : Classification} {n : String} {rest l : List String} {taken : Nat} {level : Names}
      (order : Enumerates (n :: l) level) (full : maxLevels ≤ taken + 1) :
      Ends maxLevels (.walking c rest taken level) (.error (taken + 1))

/-- Each file that is left may take all levels and two steps more. -/
def toCome (maxLevels : Nat) : Comparing → Nat
  | .between _ rest => rest.length * (maxLevels + 2)
  | .walking _ rest taken _ => rest.length * (maxLevels + 2) + (maxLevels - taken) + 1

theorem Next.toCome_lt {s s' : Comparing} (h : Next g earlier generation maxLevels s s') :
    s'.toCome maxLevels < s.toCome maxLevels := by
  cases h with
  | held | unknown | begin =>
    simp only [toCome, List.length_cons, Nat.succ_mul]
    omega
  | level _ room =>
    simp only [toCome]
    omega
  | finish =>
    simp only [toCome]
    omega

theorem next_wellFounded (g : Graph) (earlier : Names) (generation : UInt64) (maxLevels : Nat) :
    WellFounded fun s' s => Next g earlier generation maxLevels s s' := by
  apply Subrelation.wf (r := InvImage (· < ·) (toCome maxLevels))
  · intro s' s h
    exact h.toCome_lt
  · exact InvImage.wf _ Nat.lt_wfRel.wf

theorem Ends.not_next {s s' : Comparing} (h : Ends maxLevels s r) :
    ¬ Next g earlier generation maxLevels s s' := by
  intro hs
  cases h with
  | classified => cases hs
  | exceeded order full =>
    cases hs with
    | level _ room => omega
    | finish order' => exact absurd (order.trans order'.symm) (by simp)

/-- A comparison goes on until it comes to an end. -/
theorem exists_next_or_ends (s : Comparing) :
    (∃ s', Next g earlier generation maxLevels s s') ∨ ∃ r, Ends maxLevels s r := by
  cases s with
  | between c rest =>
    cases rest with
    | nil => exact .inr ⟨_, .classified⟩
    | cons n rest =>
      by_cases hs : n ∈ c.same
      · exact .inl ⟨_, .held hs⟩
      · cases hn : g.contains n with
        | false => exact .inl ⟨_, .unknown hs hn⟩
        | true => exact .inl ⟨_, .begin hs hn⟩
  | walking c rest taken level =>
    cases hl : level.toList with
    | nil => exact .inl ⟨_, .finish (hl ▸ enumerates_toList level)⟩
    | cons n l =>
      have order : Enumerates (n :: l) level := hl ▸ enumerates_toList level
      by_cases room : taken + 1 < maxLevels
      · exact .inl ⟨_, .level order room (visitsLevel_visitLevel _ _)⟩
      · exact .inr ⟨_, .exceeded order (Nat.le_of_not_lt room)⟩

end Comparing

open Comparing (Next Ends)

/-- What a comparison comes to step by step, in whatever orders sets are gone through. -/
def Returns (g : Graph) (later earlier : Names) (generation : UInt64) (maxLevels : Nat)
    (r : Except Nat Classification) : Prop :=
  ∃ l s, Enumerates l later ∧
    ReflTransGen (Next g earlier generation maxLevels) (.between (starting later earlier) l) s ∧
    Ends maxLevels s r

/-! ### Steps and walks -/

/-- What a comparison gives for what its walks give. -/
def given (maxLevels : Nat) : Option Classification → Except Nat Classification
  | some c => .ok c
  | none => .error (max maxLevels 1)

/-- What the walks that are left of a comparison come to. -/
def Comparing.Gives (g : Graph) (earlier : Names) (generation : UInt64) (maxLevels : Nat)
    (s : Comparing) (r : Except Nat Classification) : Prop :=
  match s with
  | .between c rest => ∃ o, g.WalksAll earlier generation (maxLevels - 1) c rest o ∧
      r = given maxLevels o
  | .walking c rest taken level => taken < max maxLevels 1 → ∃ l, Enumerates l level ∧
      ((∃ c' o, g.Walks earlier generation (maxLevels - 1 - taken) c l (some c') ∧
          g.WalksAll earlier generation (maxLevels - 1) c' rest o ∧ r = given maxLevels o) ∨
        g.Walks earlier generation (maxLevels - 1 - taken) c l none ∧ r = given maxLevels none)

theorem Comparing.Ends.gives {s : Comparing} (h : Ends maxLevels s r) :
    s.Gives g earlier generation maxLevels r := by
  cases h with
  | classified => exact ⟨_, .done, rfl⟩
  | @exceeded c n rest l taken level order full =>
    intro htaken
    have hleft : maxLevels - 1 - taken = 0 := by omega
    refine ⟨n :: l, order, .inr ⟨hleft ▸ .exceeded, ?_⟩⟩
    rw [given, show taken + 1 = max maxLevels 1 by omega]

theorem enumerates_singleton (n : String) : Enumerates [n] {n} := .refl _

theorem Enumerates.eq_singleton {l : List String} (h : Enumerates l {n}) : l = [n] :=
  List.perm_singleton.mp (h.trans (enumerates_singleton n).symm)

theorem Comparing.Next.gives {s s' : Comparing} (h : Next g earlier generation maxLevels s s')
    (hr : s'.Gives g earlier generation maxLevels r) :
    s.Gives g earlier generation maxLevels r := by
  cases h with
  | held hs =>
    obtain ⟨o, ho, rfl⟩ := hr
    exact ⟨o, .held hs ho, rfl⟩
  | unknown new hn =>
    obtain ⟨o, ho, rfl⟩ := hr
    exact ⟨o, .unknown new hn ho, rfl⟩
  | begin new hn =>
    obtain ⟨l, hl, hr⟩ := hr (by omega)
    rw [hl.eq_singleton] at hr
    rcases hr with ⟨c', o, walk, more, rfl⟩ | ⟨walk, rfl⟩
    · exact ⟨o, .walked new hn walk more, rfl⟩
    · exact ⟨none, .exceeded new hn walk, rfl⟩
  | @level c c' n rest l taken level next order room visits =>
    intro _
    obtain ⟨l', hl', hr⟩ := hr (by omega)
    have hleft : maxLevels - 1 - taken = maxLevels - 1 - (taken + 1) + 1 := by omega
    rw [hleft]
    refine ⟨n :: l, order, ?_⟩
    rcases hr with ⟨c'', o, walk, more, rfl⟩ | ⟨walk, rfl⟩
    · exact .inl ⟨c'', o, .level visits hl' walk, more, rfl⟩
    · exact .inr ⟨.level visits hl' walk, rfl⟩
  | finish order =>
    intro _
    obtain ⟨o, more, rfl⟩ := hr
    exact ⟨[], order, .inl ⟨_, o, .done, more, rfl⟩⟩

theorem Comparing.Ends.gives_of_steps {s s' : Comparing} (h : Ends maxLevels s' r)
    (hs : ReflTransGen (Next g earlier generation maxLevels) s s') :
    s.Gives g earlier generation maxLevels r := by
  induction hs using ReflTransGen.head_induction_on with
  | refl => exact h.gives
  | head hnext _ ih => exact hnext.gives ih

/-- A walk may be taken level by level, to its end or to the level that is one too many. -/
theorem Walks.steps {left taken : Nat} {l : List String} {level : Names}
    {o : Option Classification} (h : g.Walks earlier generation left c l o) (rest : List String)
    (hleft : taken + left = maxLevels - 1) (order : Enumerates l level) :
    (∀ c', o = some c' → ReflTransGen (Next g earlier generation maxLevels)
      (.walking c rest taken level) (.between c' rest)) ∧
    (o = none → ∃ s, ReflTransGen (Next g earlier generation maxLevels)
      (.walking c rest taken level) s ∧ Ends maxLevels s (.error (max maxLevels 1))) := by
  induction h generalizing taken level with
  | done =>
    refine ⟨fun c' hc => ?_, nofun⟩
    cases hc
    exact .single (.finish order)
  | exceeded =>
    refine ⟨nofun, fun _ => ⟨_, .refl, ?_⟩⟩
    rw [show max maxLevels 1 = taken + 1 by omega]
    exact .exceeded order (by omega)
  | level visits order' _ ih =>
    obtain ⟨hsome, hnone⟩ := ih (show taken + 1 + _ = maxLevels - 1 by omega) order'
    have hnext : Next g earlier generation maxLevels (.walking _ rest taken level) _ :=
      .level order (by omega) visits
    refine ⟨fun c' hc => .head hnext (hsome c' hc), fun hn => ?_⟩
    obtain ⟨s, hs, hend⟩ := hnone hn
    exact ⟨s, .head hnext hs, hend⟩

theorem WalksAll.steps {l : List String} {o : Option Classification}
    (h : g.WalksAll earlier generation (maxLevels - 1) c l o) :
    ∃ s, ReflTransGen (Next g earlier generation maxLevels) (.between c l) s ∧
      Ends maxLevels s (given maxLevels o) := by
  induction h with
  | done => exact ⟨_, .refl, .classified⟩
  | held hn _ ih =>
    obtain ⟨s, hs, hend⟩ := ih
    exact ⟨s, .head (.held hn) hs, hend⟩
  | unknown new hn _ ih =>
    obtain ⟨s, hs, hend⟩ := ih
    exact ⟨s, .head (.unknown new hn) hs, hend⟩
  | @walked c c' n rest r new hn walk _ ih =>
    obtain ⟨s, hs, hend⟩ := ih
    obtain ⟨hwalk, -⟩ := walk.steps rest (Nat.zero_add _) (enumerates_singleton n)
    exact ⟨s, .head (.begin new hn) ((hwalk c' rfl).trans hs), hend⟩
  | exceeded new hn walk =>
    obtain ⟨-, hwalk⟩ := walk.steps _ (Nat.zero_add _) (enumerates_singleton _)
    obtain ⟨s, hs, hend⟩ := hwalk rfl
    exact ⟨s, .head (.begin new hn) hs, hend⟩

/-- The outcomes of a comparison are what it comes to step by step. -/
theorem returns_iff_outcome : g.Returns later earlier generation maxLevels r ↔
    g.Outcome later earlier generation maxLevels r := by
  constructor
  · rintro ⟨l, s, order, hs, hend⟩
    obtain ⟨o, walks, rfl⟩ := hend.gives_of_steps hs
    cases o with
    | some c => exact .classified order walks
    | none => exact .exceeded order walks
  · intro h
    cases h with
    | classified order walks =>
      obtain ⟨s, hs, hend⟩ := walks.steps
      exact ⟨_, s, order, hs, hend⟩
    | exceeded order walks =>
      obtain ⟨s, hs, hend⟩ := walks.steps
      exact ⟨_, s, order, hs, hend⟩

/-! ## Trails -/

/-- The files that a walk may come to one after the other, from one that a compaction names: each is
an older one of the file before, and the earlier snapshot lacks it. All but the last lead on. -/
structure Trail (g : Graph) (later earlier : Names) (generation : UInt64) (p : List String) :
    Prop where
  start : ∃ n ∈ later, n ∉ earlier ∧ g.contains n = true ∧ p.head? = some n
  onward : p.IsChain (g.Onward earlier generation)

theorem leads_of_isChain {i : Nat} (h : (n :: p).IsChain (g.Onward earlier generation))
    (hx : (n :: p)[i]? = some x) : g.Leads earlier generation i n x := by
  induction p generalizing n i with
  | nil =>
    cases i with
    | zero => cases hx; exact .refl
    | succ i => simp at hx
  | cons y p ih =>
    rw [List.isChain_cons_cons] at h
    cases i with
    | zero => cases hx; exact .refl
    | succ i => exact .step h.1 (ih h.2 hx)

theorem Leads.expandable_start {steps : Nat} (h : g.Leads earlier generation steps n x)
    (hx : g.expandable generation x = true) : g.expandable generation n = true := by
  cases h with
  | refl => exact hx
  | step first _ => exact first.1

theorem exists_onward_of_cycle (h : ReflTransGen (g.Onward earlier generation) m x)
    (hx : TransGen (g.Onward earlier generation) x x) :
    ∃ y, g.Onward earlier generation m y ∧ ReflTransGen (g.Onward earlier generation) y x := by
  rcases h.cases_head with rfl | hy
  · exact TransGen.head'_iff.mp hx
  · exact hy

/-- Steps that run into a cycle can always be gone on with. -/
theorem exists_leads_of_cycle (h : ReflTransGen (g.Onward earlier generation) m x)
    (hx : TransGen (g.Onward earlier generation) x x) (steps : Nat) :
    ∃ y, g.Leads earlier generation steps m y ∧ g.expandable generation y = true := by
  induction steps generalizing m with
  | zero =>
    obtain ⟨y, hy, -⟩ := exists_onward_of_cycle h hx
    exact ⟨m, .refl, hy.1⟩
  | succ steps ih =>
    obtain ⟨y, hy, hyx⟩ := exists_onward_of_cycle h hx
    obtain ⟨z, hz, hexp⟩ := ih hyx
    exact ⟨z, .step hy hz, hexp⟩

/-- Where steps lead as far as levels are allowed, and on, no classification is given. -/
theorem Outcome.eq_error (h : g.Outcome later earlier generation maxLevels r) (hm : m ∈ later)
    (hme : m ∉ earlier) (hx : g.Leads earlier generation (maxLevels - 1) m x)
    (hexp : g.expandable generation x = true) : r = .error (max maxLevels 1) := by
  cases h with
  | exceeded => rfl
  | classified order walks =>
    have hcon := contains_of_expandable (hx.expandable_start hexp)
    have hstops := walks.stops sound_starting (fun n hn => order.mem_iff.mp hn)
      (fun n hn he => mem_same_starting.mpr ⟨hn, he⟩)
    obtain ⟨-, hstop⟩ := hstops m (order.mem_iff.mpr hm) hme hcon
    rw [hstop x hx] at hexp
    contradiction

/-- A comparison comes to an end in any case, whatever the orders, and stops nowhere else. It gives
a classification if all trails have fewer files than levels are allowed; it exceeds the levels if
some trail has as many and leads on from each of them, as one does that runs into a cycle. -/
theorem returns_of_trails (g : Graph) (later earlier : Names) (generation : UInt64)
    (maxLevels : Nat) :
    (WellFounded fun s' s => Next g earlier generation maxLevels s s') ∧
    (∀ s, (∃ r, Ends maxLevels s r) ↔ ∀ s', ¬ Next g earlier generation maxLevels s s') ∧
    g.Returns later earlier generation maxLevels (g.classify later earlier generation maxLevels) ∧
    ((∀ p, g.Trail later earlier generation p → p.length < maxLevels) →
      ∀ r, g.Returns later earlier generation maxLevels r → ∃ c, r = .ok c) ∧
    ((∃ p, g.Trail later earlier generation p ∧ maxLevels ≤ p.length ∧
        ∀ n ∈ p, g.expandable generation n = true) →
      ∀ r, g.Returns later earlier generation maxLevels r → r = .error (max maxLevels 1)) ∧
    ((∃ x, g.Met later earlier generation x ∧ TransGen (g.Onward earlier generation) x x) →
      ∀ r, g.Returns later earlier generation maxLevels r → r = .error (max maxLevels 1)) := by
  refine ⟨Comparing.next_wellFounded g earlier generation maxLevels, fun s => ?_,
    returns_iff_outcome.mpr outcome_classify, ?_, ?_, ?_⟩
  · constructor
    · rintro ⟨r, hend⟩ s'
      exact hend.not_next
    · intro hs
      rcases Comparing.exists_next_or_ends s with ⟨s', hnext⟩ | hend
      · exact absurd hnext (hs s')
      · exact hend
  · intro hp r hr
    apply (returns_iff_outcome.mp hr).exists_ok
    intro n hn hne hcon p hchain
    exact hp (n :: p) ⟨⟨n, hn, hne, hcon, rfl⟩, hchain⟩
  · rintro ⟨p, ⟨⟨n, hn, hne, -, hhead⟩, hchain⟩, hlen, hexp⟩ r hr
    obtain ⟨p, rfl⟩ := List.head?_eq_some_iff.mp hhead
    have hlast : maxLevels - 1 < (n :: p).length := by
      rw [List.length_cons] at hlen ⊢
      omega
    have hx := leads_of_isChain hchain (List.getElem?_eq_getElem hlast)
    exact (returns_iff_outcome.mp hr).eq_error hn hne hx (hexp _ (List.getElem_mem hlast))
  · rintro ⟨x, ⟨m, hm, hme, hmx⟩, hx⟩ r hr
    obtain ⟨y, hy, hexp⟩ := exists_leads_of_cycle hmx hx (maxLevels - 1)
    exact (returns_iff_outcome.mp hr).eq_error hm hme hy hexp

/-! ### A cycle -/

theorem eq_of_mem_names {k : String} (h : n ∈ names [k]) : n = k := by
  have hk : k = n := by simpa [names] using h
  exact hk.symm

theorem length_lt_of_trail_looped (h : looped.Trail (names ["b"]) ∅ 0 p) : p.length < 4 := by
  have hb : looped.olderThan "b" = names ["m"] := by decide +kernel
  have hm : looped.olderThan "m" = names ["x"] := by decide +kernel
  have hx : looped.expandable 0 "x" = false := by decide +kernel
  obtain ⟨⟨n, hn, -, -, hhead⟩, hchain⟩ := h
  obtain ⟨p, rfl⟩ := List.head?_eq_some_iff.mp hhead
  cases eq_of_mem_names hn
  rcases p with _ | ⟨y, p⟩
  · decide
  rw [List.isChain_cons_cons, Onward, hb] at hchain
  cases eq_of_mem_names hchain.1.2.1
  rcases p with _ | ⟨z, p⟩
  · decide
  rw [List.isChain_cons_cons, Onward, hm] at hchain
  cases eq_of_mem_names hchain.2.1.2.1
  rcases p with _ | ⟨w, p⟩
  · decide
  rw [List.isChain_cons_cons, Onward, hx] at hchain
  cases hchain.2.2.1.1

/-- The longest trail from `b` comes to `m` and `x`; from `p` trails run in a cycle. -/
theorem returns_of_trails_looped :
    (∀ p, looped.Trail (names ["b"]) ∅ 0 p → p.length < 4) ∧
    (∃ c, looped.classify (names ["b"]) ∅ 0 4 = .ok c) ∧
    looped.Trail (names ["p"]) ∅ 0 ["p", "q", "p"] ∧
    looped.classify (names ["p"]) ∅ 0 3 = .error 3 ∧
    looped.Met (names ["p"]) ∅ 0 "p" ∧ TransGen (looped.Onward ∅ 0) "p" "p" ∧
    looped.classify (names ["p"]) ∅ 0 1000000 = .error 1000000 := by
  have hp : "p" ∈ names ["p"] := by decide +kernel
  have hep : looped.expandable 0 "p" = true := by decide +kernel
  have heq : looped.expandable 0 "q" = true := by decide +kernel
  have hpq : looped.Onward ∅ 0 "p" "q" := ⟨hep, by decide +kernel, Std.ExtTreeSet.not_mem_empty⟩
  have hqp : looped.Onward ∅ 0 "q" "p" := ⟨heq, by decide +kernel, Std.ExtTreeSet.not_mem_empty⟩
  have hshort (p : List String) (h : looped.Trail (names ["b"]) ∅ 0 p) : p.length < 4 :=
    length_lt_of_trail_looped h
  have htrail : looped.Trail (names ["p"]) ∅ 0 ["p", "q", "p"] :=
    ⟨⟨"p", hp, Std.ExtTreeSet.not_mem_empty, contains_of_expandable hep, rfl⟩,
      .cons_cons hpq (.cons_cons hqp (.singleton _))⟩
  have hmet : looped.Met (names ["p"]) ∅ 0 "p" := ⟨"p", hp, Std.ExtTreeSet.not_mem_empty, .refl⟩
  have hcycle : TransGen (looped.Onward ∅ 0) "p" "p" := .head hpq (.single hqp)
  obtain ⟨-, -, hb, hok, -, -⟩ := returns_of_trails looped (names ["b"]) ∅ 0 4
  obtain ⟨-, -, hp, -, herror, -⟩ := returns_of_trails looped (names ["p"]) ∅ 0 3
  obtain ⟨-, -, hp', -, -, herror'⟩ := returns_of_trails looped (names ["p"]) ∅ 0 1000000
  refine ⟨hshort, hok hshort _ hb, htrail, ?_, hmet, hcycle, ?_⟩
  · refine herror ⟨_, htrail, Nat.le_refl 3, ?_⟩ _ hp
    simp [hep, heq]
  · exact herror' ⟨"p", hmet, hcycle⟩ _ hp'

end Lineage.Graph
