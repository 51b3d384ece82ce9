import Lineage.Graph.Walk

/-!
# Walks that take files in any order

Files are kept in sets, and a walk goes through sets: the files of the later snapshot, those of one
level, the older neighbours of a file. `Graph.Outcome` says what a comparison comes to if each of
these sets is gone through in some order, which may be another one every time. `Graph.classify`
takes all of them in the order of their names, which is one such choice (`outcome_classify`).
-/

namespace Lineage.Graph

variable {g : Graph} {later earlier : Names} {generation : UInt64} {maxLevels : Nat}

/-- A list goes through a set: it holds each of its names once. -/
def Enumerates (l : List String) (names : Names) : Prop := l.Perm names.toList

instance {l : List String} {names : Names} : Decidable (Enumerates l names) :=
  inferInstanceAs (Decidable (l.Perm names.toList))

theorem Enumerates.mem_iff {l : List String} {names : Names} {x : String}
    (h : Enumerates l names) : x ∈ l ↔ x ∈ names :=
  (List.Perm.mem_iff h).trans Std.ExtTreeSet.mem_toList

theorem enumerates_toList (names : Names) : Enumerates names.toList names := .refl _

theorem Enumerates.ofList_eq {l : List String} {names : Names} (h : Enumerates l names) :
    Std.ExtTreeSet.ofList l = names := by
  refine Std.ExtTreeSet.ext_mem fun x => ?_
  rw [Std.ExtTreeSet.mem_ofList, List.contains_iff_mem, h.mem_iff]

/-! ## Walks -/

/-- Takes in the files of one level in the order given, and the older neighbours of each in some
order. -/
inductive VisitsLevel (g : Graph) (earlier : Names) (generation : UInt64) :
    Classification × Names → List String → Classification × Names → Prop where
  | nil {s : Classification × Names} : VisitsLevel g earlier generation s [] s
  | expand {s s' : Classification × Names} {n : String} {rest older : List String}
      (goes : g.expandable generation n = true) (order : Enumerates older (g.olderThan n))
      (more : VisitsLevel g earlier generation (visitOlder earlier s older) rest s') :
      VisitsLevel g earlier generation s (n :: rest) s'
  | stop {c : Classification} {next : Names} {s' : Classification × Names} {n : String}
      {rest : List String} (stays : g.expandable generation n = false)
      (more : VisitsLevel g earlier generation (c.addDifferent n, next) rest s') :
      VisitsLevel g earlier generation (c, next) (n :: rest) s'

/-- Walks level by level, as many levels as are left; nothing is given if they do not suffice. -/
inductive Walks (g : Graph) (earlier : Names) (generation : UInt64) :
    Nat → Classification → List String → Option Classification → Prop where
  | done {left : Nat} {c : Classification} : Walks g earlier generation left c [] (some c)
  | exceeded {c : Classification} {n : String} {rest : List String} :
      Walks g earlier generation 0 c (n :: rest) none
  | level {left : Nat} {c c' : Classification} {next : Names} {n : String} {rest l : List String}
      {r : Option Classification}
      (visits : VisitsLevel g earlier generation (c, ∅) (n :: rest) (c', next))
      (order : Enumerates l next) (more : Walks g earlier generation left c' l r) :
      Walks g earlier generation (left + 1) c (n :: rest) r

/-- Walks from the given files one after the other. -/
inductive WalksAll (g : Graph) (earlier : Names) (generation : UInt64) (levels : Nat) :
    Classification → List String → Option Classification → Prop where
  | done {c : Classification} : WalksAll g earlier generation levels c [] (some c)
  | held {c : Classification} {n : String} {rest : List String} {r : Option Classification}
      (held : n ∈ c.same) (more : WalksAll g earlier generation levels c rest r) :
      WalksAll g earlier generation levels c (n :: rest) r
  | unknown {c : Classification} {n : String} {rest : List String} {r : Option Classification}
      (new : n ∉ c.same) (unknown : g.contains n = false)
      (more : WalksAll g earlier generation levels (c.addDifferent n) rest r) :
      WalksAll g earlier generation levels c (n :: rest) r
  | walked {c c' : Classification} {n : String} {rest : List String} {r : Option Classification}
      (new : n ∉ c.same) (known : g.contains n = true)
      (walk : Walks g earlier generation levels c [n] (some c'))
      (more : WalksAll g earlier generation levels c' rest r) :
      WalksAll g earlier generation levels c (n :: rest) r
  | exceeded {c : Classification} {n : String} {rest : List String}
      (new : n ∉ c.same) (known : g.contains n = true)
      (walk : Walks g earlier generation levels c [n] none) :
      WalksAll g earlier generation levels c (n :: rest) none

/-- What the walks from a later snapshot begin with. -/
def starting (later earlier : Names) : Classification := { same := later.filter (· ∈ earlier) }

/-- What a comparison of two snapshots comes to, in whatever orders sets are gone through. -/
inductive Outcome (g : Graph) (later earlier : Names) (generation : UInt64) (maxLevels : Nat) :
    Except Nat Classification → Prop where
  | classified {l : List String} {c : Classification} (order : Enumerates l later)
      (walks : WalksAll g earlier generation (maxLevels - 1) (starting later earlier) l (some c)) :
      Outcome g later earlier generation maxLevels (.ok c)
  | exceeded {l : List String} (order : Enumerates l later)
      (walks : WalksAll g earlier generation (maxLevels - 1) (starting later earlier) l none) :
      Outcome g later earlier generation maxLevels (.error (max maxLevels 1))

/-! ## The order of names -/

theorem visitsLevel_visitLevel (s : Classification × Names) (level : List String) :
    g.VisitsLevel earlier generation s level (g.visitLevel earlier generation s level) := by
  induction level generalizing s with
  | nil => exact .nil
  | cons n rest ih =>
    rw [visitLevel]
    split
    · exact .expand ‹_› (enumerates_toList _) (ih _)
    · exact .stop (Bool.not_eq_true _ ▸ ‹_›) (ih _)

theorem walks_walk (left : Nat) (c : Classification) (level : List String) :
    g.Walks earlier generation left c level (g.walk earlier generation left c level) := by
  induction left generalizing c level with
  | zero => cases level <;> constructor
  | succ left ih =>
    cases level with
    | nil => exact .done
    | cons n rest => exact .level (visitsLevel_visitLevel _ _) (enumerates_toList _) (ih _ _)

theorem walksAll_walkAll (levels : Nat) (c : Classification) (names : List String) :
    g.WalksAll earlier generation levels c names (g.walkAll earlier generation levels c names) := by
  induction names generalizing c with
  | nil => exact .done
  | cons n rest ih =>
    rw [walkAll]
    split
    · exact .held ‹_› (ih c)
    · split
      · have hwalk : g.Walks earlier generation levels c [n] _ := g.walks_walk levels c [n]
        cases hr : g.walk earlier generation levels c [n] with
        | none => exact .exceeded ‹_› ‹_› (hr ▸ hwalk)
        | some c' => exact .walked ‹_› ‹_› (hr ▸ hwalk) (ih c')
      · exact .unknown ‹_› (Bool.not_eq_true _ ▸ ‹_›) (ih _)

/-- The order of names may be taken but for the files of the later snapshot, which are taken in the
order given. -/
theorem outcome_walkAll {l : List String} (order : Enumerates l later) :
    g.Outcome later earlier generation maxLevels
      (match g.walkAll earlier generation (maxLevels - 1) (starting later earlier) l with
        | some c => .ok c
        | none => .error (max maxLevels 1)) := by
  have hwalks : g.WalksAll earlier generation (maxLevels - 1) (starting later earlier) l _ :=
    g.walksAll_walkAll (maxLevels - 1) (starting later earlier) l
  split
  · rename_i hr
    exact .classified order (hr ▸ hwalks)
  · rename_i hr
    exact .exceeded order (hr ▸ hwalks)

/-- Going through all sets in the order of their names is one way to go through them. -/
theorem outcome_classify : g.Outcome later earlier generation maxLevels
    (g.classify later earlier generation maxLevels) :=
  outcome_walkAll (enumerates_toList later)

end Lineage.Graph
