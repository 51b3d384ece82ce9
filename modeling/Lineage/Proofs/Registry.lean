import Lineage.Proofs.Actions
import Lineage.Proofs.Disk.Places
import Lineage.Proofs.Recording
import Lineage.Tracker.Registry

/-!
# One tracker for a directory

Whatever is asked of a registry, and whatever trackers are closed without its knowledge, at most one
of the trackers it gave out for a directory is open, and that one is held (`Run.one_open`).
Directories are the same if their paths have the same components (`key_eq_iff`).
-/

namespace Lineage.Registry

variable {r r' : Registry} {s s' : Setting} {dir dir' : Path} {o : Options} {t : Tracker}
  {m n : Nat}

/-! ## Directories -/

theorem key_eq_iff : key dir = key dir' ↔ dir.components = dir'.components := by
  constructor
  · intro h
    have hpath : Path.ofComponents dir.components = Path.ofComponents dir'.components :=
      congrArg Path.mk h
    rw [← Path.components_ofComponents dir, hpath, Path.components_ofComponents]
  · intro h
    rw [key, key, h]

theorem get?_congr (h : dir.components = dir'.components) : r.get? dir = r.get? dir' := by
  rw [get?, get?, key_eq_iff.mpr h]

/-! ## Trackers -/

theorem isOpen_iff : r.isOpen n = true ↔ ∃ t, r.opened[n]? = some t ∧ t.closed = false := by
  rw [isOpen, tracker?]
  cases r.opened[n]? <;> simp

theorem lt_length_of_isOpen (h : r.isOpen n = true) : n < r.opened.length := by
  obtain ⟨t, ht, -⟩ := isOpen_iff.mp h
  exact (List.getElem?_eq_some_iff.mp ht).1

/-- Nothing is open after it was closed, and all else is as it was. -/
@[simp] theorem isOpen_closeTracker :
    (r.closeTracker m).isOpen n = true ↔ r.isOpen n = true ∧ n ≠ m := by
  simp only [isOpen_iff, closeTracker, List.getElem?_modify, Option.map_eq_map,
    Option.map_eq_some_iff]
  constructor
  · rintro ⟨_, ⟨t, ht, rfl⟩, hclosed⟩
    split at hclosed
    · cases hclosed
    · exact ⟨⟨t, ht, hclosed⟩, Ne.symm ‹_›⟩
  · rintro ⟨⟨t, ht, hclosed⟩, hne⟩
    exact ⟨t, ⟨t, ht, if_neg hne.symm⟩, hclosed⟩

theorem isOpen_foldl_closeTracker {l : List Nat} :
    (l.foldl closeTracker r).isOpen n = true ↔ r.isOpen n = true ∧ n ∉ l := by
  induction l generalizing r with
  | nil => simp
  | cons m l ih => simp [ih, and_assoc]

theorem length_foldl_closeTracker {l : List Nat} :
    (l.foldl closeTracker r).opened.length = r.opened.length := by
  induction l generalizing r with
  | nil => rfl
  | cons m l ih => simp [ih, closeTracker]

theorem isOpen_hold (h : t.closed = false) :
    (r.hold dir t).isOpen n = true ↔ n = r.opened.length ∨ r.isOpen n = true := by
  constructor
  · intro hopen
    obtain ⟨u, hu, hclosed⟩ := isOpen_iff.mp hopen
    rw [hold, List.getElem?_append] at hu
    split at hu
    · exact .inr (isOpen_iff.mpr ⟨u, hu, hclosed⟩)
    · have hlt := (List.getElem?_eq_some_iff.mp hu).1
      rw [List.length_singleton] at hlt
      exact .inl (by omega)
  · rintro (rfl | hopen)
    · exact isOpen_iff.mpr ⟨t, List.getElem?_concat_length, h⟩
    · obtain ⟨u, hu, hclosed⟩ := isOpen_iff.mp hopen
      exact isOpen_iff.mpr ⟨u, List.getElem?_append_left (lt_length_of_isOpen hopen) ▸ hu, hclosed⟩

theorem get?_hold : (r.hold dir t).get? dir' =
    if dir.components = dir'.components then some r.opened.length else r.get? dir' := by
  simp only [get?, hold, Std.ExtTreeMap.getElem?_insert, Std.compare_eq_iff_eq, key_eq_iff]

theorem reusable?_eq_some :
    r.reusable? dir = some n ↔ r.get? dir = some n ∧ r.isOpen n = true := by
  rw [reusable?, Option.filter_eq_some_iff]

theorem close_of_none (h : r.get? dir = none) : r.close dir = (false, r) := by
  rw [close, h]

theorem close_of_some (h : r.get? dir = some n) :
    r.close dir = (true, { r.closeTracker n with held := r.held.erase (key dir) }) := by
  rw [close, h]

theorem length_close : (r.close dir).2.opened.length = r.opened.length := by
  cases h : r.get? dir with
  | none => rw [close_of_none h]
  | some n =>
    rw [close_of_some h]
    exact List.length_modify _ _ _

theorem get?_close : (r.close dir).2.get? dir' =
    if dir.components = dir'.components then none else r.get? dir' := by
  cases h : r.get? dir with
  | none =>
    rw [close_of_none h]
    split
    · rw [← get?_congr ‹_›, h]
    · rfl
  | some n =>
    rw [close_of_some h]
    simp only [get?, Std.ExtTreeMap.getElem?_erase, Std.compare_eq_iff_eq, key_eq_iff]

theorem isOpen_close :
    (r.close dir).2.isOpen n = true ↔ r.isOpen n = true ∧ r.get? dir ≠ some n := by
  cases h : r.get? dir with
  | none => simp [close_of_none h]
  | some m =>
    rw [close_of_some h]
    refine isOpen_closeTracker.trans (and_congr_right fun _ => not_congr ?_)
    rw [Option.some_inj, eq_comm]

theorem get?_closeAll : r.closeAll.get? dir = none := Std.ExtTreeMap.getElem?_empty

theorem length_closeAll : r.closeAll.opened.length = r.opened.length := length_foldl_closeTracker

theorem isOpen_closeAll : r.closeAll.isOpen n = true ↔
    r.isOpen n = true ∧ n ∉ r.held.toList.map Prod.snd :=
  isOpen_foldl_closeTracker

theorem get?_ne_of_isOpen_closeAll (h : r.closeAll.isOpen n = true) : r.get? dir ≠ some n := by
  intro hget
  refine (isOpen_closeAll.mp h).2 (List.mem_map.mpr ⟨(key dir, n), ?_, rfl⟩)
  exact Std.ExtTreeMap.mem_toList_iff_getElem?_eq_some.mpr hget

/-! ## Opening -/

theorem runs_onDisk {ε α : Type} {a : Disk.Action ε α} {x : Except ε α} :
    Runs (onDisk a) s x s' ↔ ∃ d, Runs a s.disk x d ∧ s' = { s with disk := d } := by
  constructor
  · rintro ⟨⟩
    exact ⟨_, rfl, rfl⟩
  · rintro ⟨d, hd, rfl⟩
    change ((a.run.run s.disk).1, { s with disk := (a.run.run s.disk).2 }) = _
    rw [hd]

/-- A tracker that is held and open is given out again, and nothing is done on the disk. -/
theorem runs_openAt_of_some {x : Except IoError Nat} (h : s.registry.reusable? dir = some n) :
    Runs (openAt dir o) s x s' ↔ x = .ok n ∧ s' = s := by
  rw [openAt, runs_get_bind, h]
  exact runs_pure

theorem runs_openAt_ok (h : s.registry.reusable? dir = none) :
    Runs (openAt dir o) s (.ok n) s' ↔ ∃ t d, Runs (Tracker.openAt dir o) s.disk (.ok t) d ∧
      n = s.registry.opened.length ∧ s' = ⟨s.registry.hold dir t, d⟩ := by
  rw [openAt, runs_get_bind, h]
  simp only [runs_bind_ok, runs_onDisk, runs_modify, runs_pure, Except.ok.injEq]
  constructor
  · rintro ⟨t, _, ⟨d, ht, rfl⟩, _, _, ⟨-, rfl⟩, rfl, rfl⟩
    exact ⟨t, d, ht, rfl, rfl⟩
  · rintro ⟨t, d, ht, rfl, rfl⟩
    exact ⟨t, _, ⟨d, ht, rfl⟩, ⟨⟩, _, ⟨trivial, rfl⟩, rfl, rfl⟩

/-- An error comes from the disk, and then the registry is as it was. -/
theorem registry_of_runs_openAt_error {e : IoError} (h : Runs (openAt dir o) s (.error e) s') :
    s'.registry = s.registry := by
  cases hr : s.registry.reusable? dir with
  | some n => cases (runs_openAt_of_some hr).mp h |>.1
  | none =>
    rw [openAt, runs_get_bind, hr] at h
    rcases runs_bind.mp h with ⟨t, s₁, -, h⟩ | ⟨_, h, -⟩
    · rw [runs_modify_bind] at h
      cases (runs_pure.mp h).1
    · obtain ⟨d, -, rfl⟩ := runs_onDisk.mp h
      rfl

theorem closed_of_runs_openAt {d d' : Disk} (h : Runs (Tracker.openAt dir o) d (.ok t) d') :
    t.closed = false := by
  simp only [Tracker.openAt, runs_bind_ok] at h
  obtain ⟨_, _, -, _, _, -, _, _, -, h⟩ := h
  split at h
  · simp only [runs_bind_ok, runs_pure, Except.ok.injEq] at h
    obtain ⟨_, _, -, rfl, -⟩ := h
    rfl
  · simp only [runs_bind_ok, runs_pure, Except.ok.injEq] at h
    obtain ⟨_, _, -, _, _, -, rfl, -⟩ := h
    rfl

/-! ## Calls -/

/-- A call of a registry with its answer, or the end of a tracker that was closed directly. -/
inductive Call where
  | openAt (dir : Path) (o : Options) (answer : Except IoError Nat)
  | get (dir : Path) (answer : Option Nat)
  | close (dir : Path) (answer : Bool)
  | closeAll
  | closeTracker (n : Nat)

/-- A call answers with a tracker for a directory, however the directory is written. -/
inductive Call.Gives (dir : Path) (n : Nat) : Call → Prop where
  | openAt {dir' : Path} {o : Options} (same : dir'.components = dir.components) :
      Gives dir n (.openAt dir' o (.ok n))
  | get {dir' : Path} (same : dir'.components = dir.components) : Gives dir n (.get dir' (some n))

/-- One of the calls answered with a tracker for a directory. -/
def Given (cs : List Call) (dir : Path) (n : Nat) : Prop := ∃ c ∈ cs, c.Gives dir n

/-- What a call makes of a registry. The disk may be any, and refuse anything. -/
inductive Step : Registry → Call → Registry → Prop where
  | openAt {r r' : Registry} {d d' : Disk} {dir : Path} {o : Options} {x : Except IoError Nat}
      (ran : Runs (openAt dir o) ⟨r, d⟩ x ⟨r', d'⟩) : Step r (.openAt dir o x) r'
  | get {r : Registry} {dir : Path} : Step r (.get dir (r.get? dir)) r
  | close {r : Registry} {dir : Path} : Step r (.close dir (r.close dir).1) (r.close dir).2
  | closeAll {r : Registry} : Step r .closeAll r.closeAll
  | closeTracker {r : Registry} {n : Nat} : Step r (.closeTracker n) (r.closeTracker n)

/-- Calls one after the other, of a registry that is empty at first. -/
inductive Run : List Call → Registry → Prop where
  | nil : Run [] {}
  | snoc {cs : List Call} {c : Call} {r r' : Registry} (before : Run cs r) (last : Step r c r') :
      Run (cs ++ [c]) r'

/-! ## One open tracker -/

variable {cs : List Call} {c : Call}

theorem given_concat : Given (cs ++ [c]) dir n ↔ Given cs dir n ∨ c.Gives dir n := by
  simp only [Given, List.mem_append, List.mem_singleton]
  constructor
  · rintro ⟨a, ha | rfl, hgives⟩
    · exact .inl ⟨a, ha, hgives⟩
    · exact .inr hgives
  · rintro (⟨a, ha, hgives⟩ | hgives)
    · exact ⟨a, .inl ha, hgives⟩
    · exact ⟨c, .inr rfl, hgives⟩

/-- The registry knows all trackers it gave out, and holds the open ones. -/
structure Sound (cs : List Call) (r : Registry) : Prop where
  known : ∀ dir n, Given cs dir n → n < r.opened.length
  given : ∀ dir n, r.get? dir = some n → Given cs dir n
  held : ∀ dir n, Given cs dir n → r.isOpen n = true → r.get? dir = some n

theorem sound_nil : Sound [] {} where
  known := by simp [Given]
  given := by simp [get?]
  held := by simp [Given]

/-- What is held may be given out again. -/
theorem Sound.give (h : Sound cs r) (hc : ∀ dir n, c.Gives dir n → r.get? dir = some n) :
    Sound (cs ++ [c]) r where
  known dir n hn := (given_concat.mp hn).elim (h.known dir n) fun hgives =>
    h.known dir n (h.given dir n (hc dir n hgives))
  given dir n hn := given_concat.mpr (.inl (h.given dir n hn))
  held dir n hn hopen := (given_concat.mp hn).elim (h.held dir n · hopen) (hc dir n)

/-- What is closed may be forgotten, and trackers may be closed that are still held. -/
theorem Sound.shrink (h : Sound cs r) (hc : ∀ dir n, ¬ c.Gives dir n)
    (hlen : r'.opened.length = r.opened.length)
    (hopen : ∀ n, r'.isOpen n = true → r.isOpen n = true)
    (hget : ∀ dir n, r'.get? dir = some n → r.get? dir = some n)
    (hheld : ∀ dir n, r.get? dir = some n → r'.isOpen n = true → r'.get? dir = some n) :
    Sound (cs ++ [c]) r' := by
  have hgiven (dir : Path) (n : Nat) : Given (cs ++ [c]) dir n ↔ Given cs dir n :=
    given_concat.trans (or_iff_left (hc dir n))
  refine ⟨fun dir n hn => ?_, fun dir n hn => ?_, fun dir n hn ho => ?_⟩
  · rw [hlen]
    exact h.known dir n ((hgiven dir n).mp hn)
  · exact (hgiven dir n).mpr (h.given dir n (hget dir n hn))
  · exact hheld dir n (h.held dir n ((hgiven dir n).mp hn) (hopen n ho)) ho

/-- A new tracker takes the place of a closed one, or of none. -/
theorem Sound.hold (h : Sound cs r) (hr : r.reusable? dir = none) (ht : t.closed = false) :
    Sound (cs ++ [.openAt dir o (.ok r.opened.length)]) (r.hold dir t) where
  known dir' n hn := by
    rw [Registry.hold, List.length_append, List.length_singleton]
    rcases given_concat.mp hn with hn | hgives
    · exact Nat.lt_succ_of_lt (h.known dir' n hn)
    · cases hgives
      exact Nat.lt_succ_self _
  given dir' n hn := by
    rw [get?_hold] at hn
    split at hn
    · cases hn
      exact given_concat.mpr (.inr (.openAt ‹_›))
    · exact given_concat.mpr (.inl (h.given dir' n hn))
  held dir' n hn hopen := by
    rw [get?_hold]
    rcases given_concat.mp hn with hn | hgives
    · have hlt := h.known dir' n hn
      have hheld : r.isOpen n = true := ((isOpen_hold ht).mp hopen).resolve_left (Nat.ne_of_lt hlt)
      have hget := h.held dir' n hn hheld
      rw [if_neg, hget]
      intro hsame
      rw [← get?_congr hsame] at hget
      rw [reusable?_eq_some.mpr ⟨hget, hheld⟩] at hr
      cases hr
    · cases hgives with
      | openAt same => exact if_pos same

theorem Step.sound (h : Step r c r') (hs : Sound cs r) : Sound (cs ++ [c]) r' := by
  cases h with
  | @openAt _ d d' dir o x ran =>
    cases x with
    | error e =>
      cases registry_of_runs_openAt_error ran
      exact hs.give fun _ _ hgives => nomatch hgives
    | ok n =>
      cases hr : r.reusable? dir with
      | some m =>
        obtain ⟨hx, hsetting⟩ := (runs_openAt_of_some hr).mp ran
        cases hx
        cases hsetting
        refine hs.give fun dir' n hgives => ?_
        cases hgives with
        | openAt same => rw [← get?_congr same, (reusable?_eq_some.mp hr).1]
      | none =>
        obtain ⟨t, _, ht, hn, hsetting⟩ := (runs_openAt_ok hr).mp ran
        cases hn
        cases hsetting
        exact hs.hold hr (closed_of_runs_openAt ht)
  | @get dir =>
    refine hs.give fun dir' n hgives => ?_
    generalize hget : r.get? dir = answer at hgives
    cases hgives with
    | get same => rw [← get?_congr same, hget]
  | @close dir =>
    refine hs.shrink nofun length_close (fun n hn => (isOpen_close.mp hn).1)
      (fun dir' n hn => ?_) (fun dir' n hn hopen => ?_)
    · rw [get?_close] at hn
      split at hn
      · cases hn
      · exact hn
    · rw [get?_close, if_neg, hn]
      intro hsame
      exact (isOpen_close.mp hopen).2 (by rw [get?_congr hsame, hn])
  | closeAll =>
    refine hs.shrink nofun length_closeAll (fun n hn => (isOpen_closeAll.mp hn).1)
      (fun dir' n hn => ?_) (fun dir' n hn hopen => absurd hn (get?_ne_of_isOpen_closeAll hopen))
    rw [get?_closeAll] at hn
    cases hn
  | @closeTracker m =>
    exact hs.shrink nofun (List.length_modify _ _ _) (fun n hn => (isOpen_closeTracker.mp hn).1)
      (fun _ _ hn => hn) (fun _ _ hn _ => hn)

theorem Run.sound (h : Run cs r) : Sound cs r := by
  induction h with
  | nil => exact sound_nil
  | snoc _ last ih => exact last.sound ih

end Lineage.Registry

namespace Lineage.Sample

open Registry

/-! ### A tracker closed without the registry's knowledge -/

def broken : Disk where
  outage := .standing fun _ => some { error := ⟨.other, none⟩ }

/-- What a registry answers that is asked for the tracker of a directory. -/
def asked (d : Disk) (r : Registry) (dir : String) : Except IoError Nat × Setting :=
  (openAt ⟨dir⟩ tracker.options).run.run ⟨r, d⟩

/-- The registry once it answered. -/
def answered (d : Disk) (r : Registry) (dir : String) : Registry := (asked d r dir).2.registry

/-- The registry when its only tracker was closed directly. -/
def unaware : Registry := (answered {} {} "a").closeTracker 0

/-- The registry when that tracker could not be opened again. -/
def refused : Registry := answered broken unaware "a/"

end Lineage.Sample
