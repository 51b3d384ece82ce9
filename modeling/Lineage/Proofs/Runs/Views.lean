import Lineage.Proofs.Runs.Exactness
import Lineage.SortedTable.Layout

/-!
# Keys that differ between snapshots

Files hold versions of user keys, and a reader of a store sees the newest one of each. Compactions
write only versions that their inputs hold and change nothing that a reader sees, so a key under
which two snapshots differ was flushed between them. A comparison reports a file it was flushed in,
unless nothing is left of any of these: each went, itself or what compactions made of it, into jobs
without outputs (`changed_key_reported`). Such a job is not recorded, and the exception is a real
one (`changed_key_unreported`).
-/

namespace Lineage

open SortedTable (Entry)
open Tracker (compareNames compareSnapshots Comparison)

variable {tables : String → List Entry} {live live' : Names} {key : Bytes} {v : Option Bytes}

/-! ## Views -/

/-- A file has a version of a user key. -/
def Holds (tables : String → List Entry) (n : String) (key : Bytes) : Prop :=
  ∃ e ∈ tables n, e.1.userKey = key

/-- A version of a user key in one of the files. -/
def Version (tables : String → List Entry) (live : Names) (key : Bytes) (e : Entry) : Prop :=
  e.1.userKey = key ∧ ∃ n ∈ live, e ∈ tables n

/-- A version of a user key that no other one in the files is newer than. -/
def Newest (tables : String → List Entry) (live : Names) (key : Bytes) (e : Entry) : Prop :=
  Version tables live key e ∧ ∀ e', Version tables live key e' → e'.1.sequence ≤ e.1.sequence

/-- What a reader of the files sees under a user key: the value that the newest version puts, or
nothing, if that is a deletion or there is none. -/
def Reads (tables : String → List Entry) (live : Names) (key : Bytes) : Option Bytes → Prop
  | some v => ∃ e, Newest tables live key e ∧ e.1.kind = .put ∧ e.2 = v
  | none => ∀ e, Newest tables live key e → e.1.kind = .deletion

/-- Readers see the same under a user key. -/
def SameView (tables : String → List Entry) (live live' : Names) (key : Bytes) : Prop :=
  ∀ v, Reads tables live key v ↔ Reads tables live' key v

/-- What a reader sees under a key is a matter of the versions of the key. -/
theorem sameView_of_versions
    (h : ∀ e, Version tables live key e ↔ Version tables live' key e) :
    SameView tables live live' key := by
  have hnewest (e : Entry) : Newest tables live key e ↔ Newest tables live' key e := by
    simp only [Newest, h]
  intro v
  cases v <;> simp only [Reads, hnewest]

theorem SameView.trans {live'' : Names} (h : SameView tables live live' key)
    (h' : SameView tables live' live'' key) : SameView tables live live'' key :=
  fun v => (h v).trans (h' v)

/-! ## Runs that preserve the view -/

/-- The files that are new hold nothing but versions of files that are gone, and readers see the
same as before. -/
structure Rewrites (tables : String → List Entry) (live live' : Names) : Prop where
  versions : ∀ n ∈ live', n ∉ live → ∀ e ∈ tables n, ∃ m ∈ live, m ∉ live' ∧ e ∈ tables m
  view : ∀ key, SameView tables live live' key

/-- A run in which every compaction keeps what readers see. -/
inductive FaithfulRun (tables : String → List Entry) : Scene → List Event → Scene → Prop where
  | nil {s : Scene} : FaithfulRun tables s [] s
  | snoc {s s₁ s' : Scene} {es : List Event} {e : Event} (before : FaithfulRun tables s es s₁)
      (last : Step s₁ e s')
      (rewrites : ∀ store now j, e = .complete store now j → Rewrites tables s₁.live s'.live) :
      FaithfulRun tables s (es ++ [e]) s'

variable {s₀ s s' s₁ s₂ s₃ : Scene} {e : Event} {es es₁ es₂ es₃ : List Event} {n : String}

theorem FaithfulRun.run (h : FaithfulRun tables s es s') : Run s es s' := by
  induction h with
  | nil => exact .nil
  | snoc _ last _ ih => exact .snoc ih last

/-- A file without versions of a key comes in. -/
theorem sameView_flush {sequence : UInt64} (hn : ¬ Holds tables n key) :
    SameView tables s.live (s.flush n sequence).live key := by
  refine sameView_of_versions fun e => ?_
  constructor
  · rintro ⟨hk, m, hm, he⟩
    exact ⟨hk, m, Scene.mem_live_flush.mpr (.inr hm), he⟩
  · rintro ⟨hk, m, hm, he⟩
    rcases Scene.mem_live_flush.mp hm with rfl | hm
    · exact absurd ⟨e, he, hk⟩ hn
    · exact ⟨hk, m, hm, he⟩

/-- A key that differs at the end of a run was flushed in its course. -/
theorem FaithfulRun.sameView (h : FaithfulRun tables s es s')
    (hno : ∀ n ∈ es.flatMap Event.flushed, ¬ Holds tables n key) :
    SameView tables s.live s'.live key := by
  induction h with
  | nil => exact fun _ => Iff.rfl
  | @snoc s₁ s' es e _ last rewrites ih =>
    rw [List.flatMap_append] at hno
    refine (ih fun n hn => hno n (List.mem_append_left _ hn)).trans ?_
    cases last with
    | @flush n sequence _ _ => exact sameView_flush (hno n (by simp [Event.flushed]))
    | snapshot | begin => exact fun _ => Iff.rfl
    | complete => exact (rewrites _ _ _ rfl).view key

/-- A file that two snapshots' comparison reports. -/
theorem mem_of_compareSnapshots {later earlier : Snapshot} {names : List String}
    (h : Between s₁ s₂ s₃ es₂ es₃) (he : Shows s₃.world.tracker.options earlier s₁)
    (hl : Shows s₃.world.tracker.options later s₂) (hp : later.prefixes = ∅)
    (hcmp : compareSnapshots s₃.world.tracker later earlier = .ok (.incremental names)) :
    n ∈ names ↔ n ∈ es₂.flatMap Event.flushed ∧ ∃ m ∈ s₂.live, s₂.Descends s₁ m n := by
  rw [compareSnapshots_eq he hl hp, compareNames] at hcmp
  change ((s₃.graph.classify s₂.live s₁.live s₁.sequence _).mapError _).bind _ = _ at hcmp
  cases hok : s₃.graph.classify s₂.live s₁.live s₁.sequence
      s₃.world.tracker.options.maxLevels with
  | error l =>
    rw [hok] at hcmp
    cases hcmp
  | ok c =>
    rw [hok] at hcmp
    change (if s₁.live.toList.all c.mentions then Except.ok (Comparison.incremental _) else
      .ok .full) = _ at hcmp
    split at hcmp
    · cases hcmp
      rw [Std.ExtTreeSet.mem_toList]
      exact h.mem_different_iff (Graph.classifies_of_classify hok)
    · cases hcmp

/-- Nothing is left of the files flushed between two scenes that hold a key: each went, itself or in
what compactions made of it, into jobs without outputs, and no file made of it is live. -/
structure Vanished (tables : String → List Entry) (key : Bytes) (s s' : Scene) (es : List Event) :
    Prop where
  flushed : ∃ n ∈ es.flatMap Event.flushed, Holds tables n key
  lost : ∀ n ∈ es.flatMap Event.flushed, Holds tables n key →
    ∃ m ∈ es.flatMap Event.lost, s'.Descends s m n
  gone : ∀ n ∈ es.flatMap Event.flushed, Holds tables n key → ∀ m ∈ s'.live, ¬ s'.Descends s m n

/-- Where two snapshots differ under a key, their comparison reports a file that holds it, unless
nothing is left of any file that holds it and was flushed between them. -/
theorem changed_key_reported {later earlier : Snapshot} {names : List String} (start : Starts s₀)
    (h₁ : Run s₀ es₁ s₁) (h₂ : FaithfulRun tables s₁ es₂ s₂) (h₃ : Run s₂ es₃ s₃)
    (he : Shows s₃.world.tracker.options earlier s₁)
    (hl : Shows s₃.world.tracker.options later s₂) (hp : later.prefixes = ∅)
    (hcmp : compareSnapshots s₃.world.tracker later earlier = .ok (.incremental names))
    (hkey : ¬ SameView tables s₁.live s₂.live key) :
    (∃ n ∈ names, Holds tables n key) ↔ ¬ Vanished tables key s₁ s₂ es₂ := by
  have h := h₁.between h₂.run h₃ start he.listed
  have hnames (n : String) := mem_of_compareSnapshots (n := n) h he hl hp hcmp
  constructor
  · rintro ⟨n, hn, hk⟩ hvanished
    obtain ⟨hflushed, m, hm, hd⟩ := (hnames n).mp hn
    exact hvanished.gone n hflushed hk m hm hd
  · intro hnot
    by_contra hunreported
    have hgone : ∀ n ∈ es₂.flatMap Event.flushed, Holds tables n key →
        ∀ m ∈ s₂.live, ¬ s₂.Descends s₁ m n := fun n hn hk m hm hd =>
      hunreported ⟨n, (hnames n).mpr ⟨hn, m, hm, hd⟩, hk⟩
    refine hnot ⟨?_, fun n hn hk => ?_, hgone⟩
    · by_contra hno
      exact hkey (h₂.sameView fun n hn hk => hno ⟨n, hn, hk⟩)
    · obtain ⟨m, hm | hm, hd⟩ := h.since₁₂.covered n (.inr hn)
      · exact absurd hd (hgone n hn hk m hm)
      · exact ⟨m, hm, hd⟩

/-! ## A key that is reported, and one that is not -/

namespace Sample

/-- The first file puts two keys, its halves have one each, and the file flushed later deletes the
first key. -/
def contents (n : String) : List Entry :=
  let first : Entry := (⟨[1], 1, .put⟩, [10])
  let second : Entry := (⟨[2], 1, .put⟩, [20])
  if n = "a" then [first, second]
  else if n = "b" then [first]
  else if n = "c" then [second]
  else if n = "f" then [(⟨[1], 2, .deletion⟩, [])]
  else []

/-- The deletion and what it deletes are replaced by nothing. -/
def lost : Scene := complete flushed 2 ["b", "f"] []

/-- All that is to be checked of the job that loses the deletion. -/
theorem checked_lost : Compacts flushed 2 ["b", "f"] [] ∧
    lost.world.tracker.options.tracks "keyTable" = true ∧ Listed lost ["c"] := by
  decide +kernel

theorem step_lost : Step flushed (.complete (store 2) 0 (job ["b", "f"] [])) lost :=
  step_complete checked_lost.1 rfl

theorem shows_lost : Shows lost.world.tracker.options (snapshot 2 ["c"]) lost :=
  shows_snapshot checked_lost.2.2 rfl checked_lost.2.1

theorem live_listed : n ∈ listed.live ↔ n = "a" := by
  simp only [listed, Scene.list, Scene.opening, Std.ExtTreeSet.mem_ofList, List.contains_iff_mem,
    List.mem_singleton]

theorem live_split : n ∈ split.live ↔ n = "b" ∨ n = "c" := by
  obtain ⟨-, -, h, -⟩ := checked_flushed
  simp [h]

theorem live_flushed : n ∈ flushed.live ↔ n = "b" ∨ n = "c" ∨ n = "f" := by
  obtain ⟨-, -, -, -, -, -, -, h, -⟩ := checked_flushed
  simp [h]

theorem live_lost : n ∈ lost.live ↔ n = "c" := by
  obtain ⟨-, -, -, h, -⟩ := checked_lost
  simp only [h, Std.ExtTreeSet.mem_ofList, List.contains_iff_mem, List.mem_singleton]

theorem rewrites_split : Rewrites contents listed.live split.live where
  versions n hn _ e he := by
    refine ⟨"a", live_listed.mpr rfl, by simp [live_split], ?_⟩
    rcases live_split.mp hn with rfl | rfl
    all_goals
      simp only [contents] at he ⊢
      simp_all
  view key := sameView_of_versions fun e => by
    simp [Version, live_listed, live_split, contents]

theorem version_listed {e : Entry} :
    Version contents listed.live [1] e ↔ e = (⟨[1], 1, .put⟩, [10]) := by
  simp [Version, live_listed, contents]
  grind

theorem version_flushed {e : Entry} : Version contents flushed.live [1] e ↔
    e = (⟨[1], 1, .put⟩, [10]) ∨ e = (⟨[1], 2, .deletion⟩, []) := by
  simp [Version, live_flushed, contents]
  grind

theorem not_version_lost {e : Entry} : ¬ Version contents lost.live [1] e := by
  simp [Version, live_lost, contents]
  grind

theorem newest_flushed {e : Entry} (h : Newest contents flushed.live [1] e) :
    e.1.kind = .deletion := by
  rcases version_flushed.mp h.1 with rfl | rfl
  · exact absurd (h.2 _ (version_flushed.mpr (.inr rfl))) (by decide)
  · rfl

/-- Under the first key there is nothing to see before or after the deletion goes. -/
theorem rewrites_lost : Rewrites contents flushed.live lost.live where
  versions n hn hno := by
    refine absurd (live_flushed.mpr ?_) hno
    exact .inr (.inl (live_lost.mp hn))
  view key := by
    by_cases hk : key = [1]
    · subst hk
      intro v
      cases v with
      | none => exact ⟨fun _ e he => absurd he.1 not_version_lost, fun _ e => newest_flushed⟩
      | some v =>
        constructor
        · rintro ⟨e, he, hput, -⟩
          rw [newest_flushed he] at hput
          contradiction
        · exact fun ⟨e, he, _⟩ => absurd he.1 not_version_lost
    · refine sameView_of_versions fun e => ?_
      simp [Version, live_flushed, live_lost, contents]
      grind

theorem reads_listed : Reads contents listed.live [1] (some [10]) := by
  refine ⟨_, ⟨version_listed.mpr rfl, fun e he => ?_⟩, rfl, rfl⟩
  rw [version_listed.mp he]
  exact UInt64.le_refl _

theorem faithful_flushed : FaithfulRun contents listed
    [.complete (store 1) 0 (job ["a"] ["b", "c"]), .flush "f" 2] flushed :=
  .snoc (.snoc .nil step_split fun _ _ _ _ => rewrites_split) step_flushed nofun

theorem faithful_lost : FaithfulRun contents listed
    [.complete (store 1) 0 (job ["a"] ["b", "c"]), .flush "f" 2,
      .complete (store 2) 0 (job ["b", "f"] [])] lost :=
  .snoc faithful_flushed step_lost fun _ _ _ _ => rewrites_lost

end Sample

/-- A key is deleted between two snapshots, and the comparison reports the file that deletes it,
which has not vanished. -/
theorem changed_key_flushed : ¬ SameView Sample.contents Sample.listed.live Sample.flushed.live [1] ∧
    ((∃ n ∈ ["f"], Holds Sample.contents n [1]) ↔
      ¬ Vanished Sample.contents [1] Sample.listed Sample.flushed
        [.complete (Sample.store 1) 0 (Sample.job ["a"] ["b", "c"]), .flush "f" 2]) := by
  have hkey : ¬ SameView Sample.contents Sample.listed.live Sample.flushed.live [1] := fun h => by
    obtain ⟨e, he, hput, -⟩ := (h (some [10])).mp Sample.reads_listed
    rw [Sample.newest_flushed he] at hput
    contradiction
  exact ⟨hkey, changed_key_reported Scene.starts_opening Sample.run_listed Sample.faithful_flushed
    .nil Sample.shows_listed Sample.shows_flushed rfl (eq_ok_of_toOption (by decide +kernel)) hkey⟩

/-- A key is deleted between two snapshots, and a job without outputs takes up both the deletion and
what it deletes: the comparison reports no file at all. -/
theorem changed_key_unreported : Starts (Scene.opening ["a"]) ∧
    Run (Scene.opening ["a"]) [.snapshot [0] []] Sample.listed ∧
    FaithfulRun Sample.contents Sample.listed
      [.complete (Sample.store 1) 0 (Sample.job ["a"] ["b", "c"]), .flush "f" 2,
        .complete (Sample.store 2) 0 (Sample.job ["b", "f"] [])] Sample.lost ∧
    Shows Sample.lost.world.tracker.options (Sample.snapshot 1 ["a"]) Sample.listed ∧
    Shows Sample.lost.world.tracker.options (Sample.snapshot 2 ["c"]) Sample.lost ∧
    compareSnapshots Sample.lost.world.tracker (Sample.snapshot 2 ["c"])
      (Sample.snapshot 1 ["a"]) = .ok (.incremental []) ∧
    ¬ SameView Sample.contents Sample.listed.live Sample.lost.live [1] := by
  refine ⟨Scene.starts_opening, Sample.run_listed, Sample.faithful_lost, Sample.shows_listed,
    Sample.shows_lost, eq_ok_of_toOption (by decide +kernel), fun h => ?_⟩
  obtain ⟨e, he, -⟩ := (h (some [10])).mp Sample.reads_listed
  exact Sample.not_version_lost he.1

end Lineage
