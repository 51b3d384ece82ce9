import Lineage.Proofs.Runs.Since

/-!
# What a comparison reports

As long as no history expires, the files that a comparison of two snapshots reports are those that
were flushed between them and have not been lost since (`mem_different_iff`). Where every compaction
between them has outputs, that is every flushed file, and the whole history of the earlier snapshot
is found (`compareSnapshots_eq_flushed`): a compaction that has the sequence number of the earlier
snapshot is walked through, since no file of it is older than that.
-/

namespace Lineage

open Relation (ReflTransGen)
open Tracker (compareNames compareSnapshots)

variable {s₀ s s₁ s₂ s₃ : Scene} {es₁ es₂ es₃ : List Event} {c : Classification} {m n x : String}

/-! ## Walks between two scenes -/

theorem Graph.expandable_iff {g : Graph} {generation : UInt64} :
    g.expandable generation n = true ↔
      ∃ m, g.bare? n = some m ∧ generation ≤ m.generation ∧ ∃ x, x ∈ g.olderThan n := by
  rw [Graph.expandable, Graph.bare?, ← Graph.replacedAny_iff]
  cases g.node? n with
  | none => simp
  | some m => simp

/-- A file that is new since the earlier scene is walked through if a compaction made it. -/
theorem Since.expandable_iff (h : Since s₁ s es₂) (ht : s.Tracked) (hn : n ∉ s₁.used) :
    s.graph.expandable s₁.sequence n = true ↔ ∃ x, x ∈ s.graph.olderThan n := by
  rw [Graph.expandable_iff]
  constructor
  · exact fun ⟨_, _, _, hx⟩ => hx
  · rintro ⟨x, hx⟩
    have hc := (ht.edge_nodes n x hx).1
    rw [Graph.contains_eq_isSome_bare?] at hc
    obtain ⟨m, hm⟩ := Option.isSome_iff_exists.mp hc
    exact ⟨m, hm, h.generation n m hm hn, x, hx⟩

/-- Descent among files that are new since the earlier scene is walked along. -/
theorem Since.reflTransGen_onward (h : Since s₁ s es₂) (ht : s.Tracked)
    (ht₁ : s₁.Tracked) (hd : s.Descends s₁ m n) (hn : n ∉ s₁.used) :
    m ∉ s₁.used ∧ ReflTransGen (s.graph.Onward s₁.live s₁.sequence) m n := by
  induction hd using ReflTransGen.head_induction_on with
  | refl => exact ⟨hn, .refl⟩
  | @head m x hmx _ ih =>
    refine ⟨hmx.1, .head ⟨?_, hmx.2, fun hx => ih.1 (ht₁.live_used x hx)⟩ ih.2⟩
    exact (h.expandable_iff ht hmx.1).mpr ⟨x, hmx.2⟩

/-- An earlier snapshot was listed at the first scene, a later one is of the second, and the two are
compared at the third. -/
structure Between (s₁ s₂ s₃ : Scene) (es₂ es₃ : List Event) : Prop where
  tracked₁ : s₁.Tracked
  tracked₂ : s₂.Tracked
  tracked₃ : s₃.Tracked
  since₁₂ : Since s₁ s₂ es₂
  since₁₃ : Since s₁ s₃ (es₂ ++ es₃)
  since₂₃ : Since s₂ s₃ es₃

theorem Run.between (h₁ : Run s₀ es₁ s₁) (h₂ : Run s₁ es₂ s₂) (h₃ : Run s₂ es₃ s₃)
    (start : Starts s₀) (listed : s₁.world.host.snapshots.isEmpty = false) :
    Between s₁ s₂ s₃ es₂ es₃ := by
  have ht₁ := h₁.tracked start.tracked
  have hs₁₂ := h₂.since ht₁ listed
  exact ⟨ht₁, h₂.tracked ht₁, h₃.tracked (h₂.tracked ht₁), hs₁₂, (h₂.append h₃).since ht₁ listed,
    h₃.since (h₂.tracked ht₁) hs₁₂.listed⟩

namespace Between

variable (h : Between s₁ s₂ s₃ es₂ es₃)
include h

/-- Descent at the later scene is descent for ever. -/
theorem descends_mono (hd : s₂.Descends s₁ m n) : s₃.Descends s₁ m n :=
  hd.lift id fun _ x hx => ⟨hx.1, h.since₂₃.edge_mono _ x hx.2⟩

/-- Whatever a walk meets is new since the earlier snapshot and was there at the later one, which
has a file that comes from it. -/
theorem met_new (hm : s₃.graph.Met s₂.live s₁.live s₁.sequence n) :
    n ∉ s₁.used ∧ n ∈ s₂.used ∧ ∃ m ∈ s₂.live, s₂.Descends s₁ m n := by
  obtain ⟨m, hm, hme, hmn⟩ := hm
  induction hmn with
  | refl =>
    exact ⟨fun hn => hme (h.since₁₂.kept m hm hn), h.tracked₂.live_used m hm, m, hm, .refl⟩
  | @tail n x _ hx ih =>
    obtain ⟨hn₁, hn₂, k, hk, hkn⟩ := ih
    have hxn := h.since₂₃.edge_old n hn₂ x hx.2.1
    refine ⟨fun hx₁ => hx.2.2 (h.since₁₃.edge_new n hn₁ x hx.2.1 hx₁), ?_, k, hk,
      hkn.tail ⟨hn₁, hxn⟩⟩
    exact h.tracked₂.node_used x (h.tracked₂.edge_nodes n x hxn).2

/-- What a file of the later snapshot comes from is met, if it is new since the earlier one. -/
theorem met_of_descends (hm : m ∈ s₂.live) (hd : s₂.Descends s₁ m n) (hn : n ∉ s₁.used) :
    s₃.graph.Met s₂.live s₁.live s₁.sequence n := by
  obtain ⟨hm₁, hmn⟩ :=
    h.since₁₃.reflTransGen_onward h.tracked₃ h.tracked₁ (h.descends_mono hd) hn
  exact ⟨m, hm, fun hme => hm₁ (h.tracked₁.live_used m hme), hmn⟩

section
variable (hc : s₃.graph.Classifies s₂.live s₁.live s₁.sequence c)
include hc

/-- The files that may differ are those that were flushed between the snapshots and that a file of
the later one comes from. -/
theorem mem_different_iff : n ∈ c.different ↔
    n ∈ es₂.flatMap Event.flushed ∧ ∃ m ∈ s₂.live, s₂.Descends s₁ m n := by
  rw [hc.different]
  constructor
  · rintro ⟨hm, hstop⟩
    obtain ⟨hn₁, hn₂, hd⟩ := h.met_new hm
    refine ⟨?_, hd⟩
    have hleaf : ¬ ∃ x, x ∈ s₃.graph.olderThan n := by
      rw [← h.since₁₃.expandable_iff h.tracked₃ hn₁, hstop]
      exact Bool.false_ne_true
    by_contra hno
    refine hleaf (h.since₁₃.replaced n (h.since₂₃.used n hn₂) hn₁ fun hf => ?_)
    rw [List.flatMap_append, List.mem_append] at hf
    exact (h.since₂₃.flushed n (hf.resolve_left hno)).1 hn₂
  · rintro ⟨hf, m, hm, hd⟩
    have hf₃ : n ∈ (es₂ ++ es₃).flatMap Event.flushed := by
      rw [List.flatMap_append]
      exact List.mem_append_left _ hf
    obtain ⟨hn₁, -, hleaf⟩ := h.since₁₃.flushed n hf₃
    refine ⟨h.met_of_descends hm hd hn₁, Bool.eq_false_iff.mpr fun hexp => ?_⟩
    obtain ⟨x, hx⟩ := (h.since₁₃.expandable_iff h.tracked₃ hn₁).mp hexp
    exact hleaf x hx

/-- A file of the earlier snapshot is found if a file of the later one comes from it. -/
theorem mem_same_of_descends (hn : n ∈ s₁.live) (hm : m ∈ s₂.live) (hd : s₂.Descends s₁ m n) :
    n ∈ c.same := by
  refine (hc.same n).mpr ⟨hn, ?_⟩
  cases hd with
  | refl => exact .inl hm
  | @tail y _ hmy hy =>
    have hyn := h.since₂₃.edge_mono y n hy.2
    exact .inr ⟨y, h.met_of_descends hm hmy hy.1,
      (h.since₁₃.expandable_iff h.tracked₃ hy.1).mpr ⟨n, hyn⟩, hyn, hn⟩

end

/-- A chain of files that are walked through is no longer than there are recorded compactions. -/
theorem length_le_of_isChain {p : List String}
    (hp : (n :: p).IsChain (s₃.graph.Onward s₁.live s₁.sequence)) : p.length ≤ s₃.recorded := by
  obtain ⟨rank, hle, hlt⟩ := h.tracked₃.ranked
  have hrank (p : List String) (n : String)
      (hp : (n :: p).IsChain (s₃.graph.Onward s₁.live s₁.sequence)) : p.length ≤ rank n := by
    induction p generalizing n with
    | nil => exact Nat.zero_le _
    | cons x rest ih =>
      rw [List.isChain_cons_cons] at hp
      exact Nat.lt_of_le_of_lt (ih x hp.2) (hlt n x hp.1.2.1)
  exact (hrank p n hp).trans (hle n)

end Between

/-! ## Comparisons -/

/-- Jobs with outputs lose no files. -/
theorem not_mem_lost {es : List Event}
    (h : ∀ store now j, .complete store now j ∈ es → j.outputs ≠ []) :
    n ∉ es.flatMap Event.lost := by
  rw [List.mem_flatMap]
  rintro ⟨e, he, hn⟩
  cases e with
  | complete store now j =>
    have hj : j.outputs.isEmpty = false := by simpa using h store now j he
    simp [Event.lost, hj] at hn
  | flush | snapshot | begin => simp [Event.lost] at hn

theorem compareSnapshots_eq {t : Tracker} {later earlier : Snapshot}
    (he : Shows t.options earlier s₁) (hl : Shows t.options later s₂) (hp : later.prefixes = ∅) :
    compareSnapshots t later earlier =
      compareNames t.graph s₂.live s₁.live s₁.sequence t.options.maxLevels := by
  rw [compareSnapshots, he.liveNames, hl.liveNames, he.generation, hp]
  change (compareNames t.graph s₂.live s₁.live s₁.sequence t.options.maxLevels).bind _ = _
  cases compareNames t.graph s₂.live s₁.live s₁.sequence t.options.maxLevels <;> rfl

/-- The files that a comparison reports stand in ascending order. -/
theorem pairwise_toList (ns : Names) : ns.toList.Pairwise (· < ·) := by
  have h : ns.toList.Pairwise fun a b => compare a b = .lt := Std.ExtTreeSet.ordered_toList
  exact h.imp compareOfLessAndEq_eq_lt.mp

/-- The comparison of two snapshots reports the files that were flushed between them, if every
compaction between them has outputs and the levels allowed suffice for the recorded ones. -/
theorem compareSnapshots_eq_flushed {later earlier : Snapshot} (start : Starts s₀)
    (h₁ : Run s₀ es₁ s₁) (h₂ : Run s₁ es₂ s₂) (h₃ : Run s₂ es₃ s₃)
    (he : Shows s₃.world.tracker.options earlier s₁)
    (hl : Shows s₃.world.tracker.options later s₂) (hp : later.prefixes = ∅)
    (houts : ∀ store now j, .complete store now j ∈ es₂ → j.outputs ≠ [])
    (hmax : s₃.recorded + 1 < s₃.world.tracker.options.maxLevels) :
    ∃ names, compareSnapshots s₃.world.tracker later earlier = .ok (.incremental names) ∧
      names.Pairwise (· < ·) ∧ ∀ n, n ∈ names ↔ n ∈ es₂.flatMap Event.flushed := by
  have h := h₁.between h₂ h₃ start he.listed
  have hcovered : ∀ n, n ∈ s₁.live ∨ n ∈ es₂.flatMap Event.flushed →
      ∃ m ∈ s₂.live, s₂.Descends s₁ m n := by
    intro n hn
    obtain ⟨m, hm, hd⟩ := h.since₁₂.covered n hn
    exact ⟨m, hm.resolve_right (not_mem_lost houts), hd⟩
  obtain ⟨c, hok⟩ : ∃ c, s₃.graph.classify s₂.live s₁.live s₁.sequence
      s₃.world.tracker.options.maxLevels = .ok c :=
    Graph.exists_classify_eq_ok fun n _ _ p hp =>
      Nat.lt_of_le_of_lt (Nat.succ_le_succ (h.length_le_of_isChain hp)) hmax
  have hc := Graph.classifies_of_classify hok
  have hall : s₁.live.toList.all c.mentions = true := by
    rw [List.all_eq_true]
    intro n hn
    obtain ⟨m, hm, hd⟩ := hcovered n (.inl (Std.ExtTreeSet.mem_toList.mp hn))
    refine Graph.mentions_iff.mpr (.inl ?_)
    exact h.mem_same_of_descends hc (Std.ExtTreeSet.mem_toList.mp hn) hm hd
  refine ⟨c.different.toList, ?_, pairwise_toList _, fun n => ?_⟩
  · rw [compareSnapshots_eq he hl hp, compareNames]
    change ((s₃.graph.classify s₂.live s₁.live s₁.sequence _).mapError _).bind _ = _
    rw [hok]
    exact if_pos hall
  · rw [Std.ExtTreeSet.mem_toList, h.mem_different_iff hc]
    exact and_iff_left_of_imp fun hn => hcovered n (.inr hn)

/-! ## A sample run -/

namespace Sample

/-- A snapshot of a store with the given files. -/
def snapshot (generation : UInt64) (files : List String) : Snapshot where
  generation := generation
  dir := ⟨"/snapshot"⟩
  live := .ok (files.map fun n => ⟨(path n).text, "keyTable", 1, [], []⟩)

def complete (s : Scene) (sequence : UInt64) (inputs outputs : List String) : Scene :=
  s.compact ((Tracker.completeJob (store sequence) 0 (job inputs outputs)).run.run s.world).2
    inputs outputs sequence

/-- A snapshot of one file is listed. -/
def listed : Scene := (Scene.opening ["a"]).list [0] []

/-- The file is split in two. -/
def split : Scene := complete listed 1 ["a"] ["b", "c"]

/-- Another file is flushed. -/
def flushed : Scene := split.flush "f" 2

/-- A snapshot of these files can be compared. -/
abbrev Listed (s : Scene) (files : List String) : Prop :=
  s.world.host.snapshots.isEmpty = false ∧ s.live = .ofList files ∧
    ∀ n ∈ files, SortedTable.nameAt? (path n) = some n

/-- A job over these files can be completed. -/
abbrev Compacts (s : Scene) (sequence : UInt64) (inputs outputs : List String) : Prop :=
  s.world.tracker.options.tracks "keyTable" = true ∧
    (inputs.map path).map SortedTable.nameAt? = inputs.map some ∧
    (outputs.map path).map SortedTable.nameAt? = outputs.map some ∧ inputs ≠ [] ∧
    (∀ n ∈ inputs, n ∈ s.live) ∧ (∀ n ∈ outputs, n ∉ s.used) ∧ s.sequence ≤ sequence

theorem shows_snapshot {s : Scene} {o : Options} {generation : UInt64} {files : List String}
    (h : Listed s files) (hg : generation = s.sequence) (ho : o.tracks "keyTable" = true) :
    Shows o (snapshot generation files) s where
  listed := h.1
  generation := hg
  live := by
    obtain ⟨-, hs, hn⟩ := h
    have hmem (n : String) : n ∈ s.live ↔ n ∈ files := by
      rw [hs, Std.ExtTreeSet.mem_ofList, List.contains_iff_mem]
    refine ⟨_, rfl, List.forall_mem_map.mpr fun n _ => ho, ?_, fun n hns => ?_⟩
    · exact List.forall_mem_map.mpr fun n hf => ⟨n, (hmem n).mpr hf, hn n hf⟩
    · exact ⟨_, List.mem_map_of_mem ((hmem n).mp hns), hn n ((hmem n).mp hns)⟩

theorem step_complete {s : Scene} {sequence : UInt64} {inputs outputs : List String}
    (h : Compacts s sequence inputs outputs)
    (ran : Runs (Tracker.completeJob (store sequence) 0 (job inputs outputs)) s.world (.ok ())
      ((Tracker.completeJob (store sequence) 0 (job inputs outputs)).run.run s.world).2) :
    Step s (.complete (store sequence) 0 (job inputs outputs))
      (complete s sequence inputs outputs) := by
  obtain ⟨htracked, hinputs, houtputs, hreplaces, hheld, hnew, hlater⟩ := h
  exact .complete htracked hinputs houtputs hreplaces hheld hnew hlater ran

theorem run_listed : Run (.opening ["a"]) [.snapshot [0] []] listed := .snoc .nil .snapshot

/-- All that is to be checked of the sample run. It is one proposition, so that each scene is
computed once. -/
theorem checked_flushed : Compacts listed 1 ["a"] ["b", "c"] ∧ Listed listed ["a"] ∧
    split.live = .ofList ["b", "c"] ∧ "f" ∉ split.used ∧ split.sequence ≤ 2 ∧
    flushed.world.tracker.options.tracks "keyTable" = true ∧ Listed flushed ["b", "c", "f"] := by
  decide +kernel

theorem step_split : Step listed (.complete (store 1) 0 (job ["a"] ["b", "c"])) split :=
  step_complete checked_flushed.1 rfl

theorem step_flushed : Step split (.flush "f" 2) flushed := by
  obtain ⟨-, -, -, hnew, hlater, -⟩ := checked_flushed
  exact .flush hnew hlater

theorem run_flushed :
    Run listed [.complete (store 1) 0 (job ["a"] ["b", "c"]), .flush "f" 2] flushed :=
  .snoc (.snoc .nil step_split) step_flushed

theorem shows_listed : Shows flushed.world.tracker.options (snapshot 1 ["a"]) listed := by
  obtain ⟨-, hlisted, -, -, -, htracked, -⟩ := checked_flushed
  exact shows_snapshot hlisted rfl htracked

theorem shows_flushed :
    Shows flushed.world.tracker.options (snapshot 2 ["b", "c", "f"]) flushed := by
  obtain ⟨-, -, -, -, -, htracked, hlisted⟩ := checked_flushed
  exact shows_snapshot hlisted rfl htracked

end Sample

/-- A file is split at the sequence number of the earlier snapshot; only the flushed one differs. -/
theorem compareSnapshots_split_flush : ∃ names,
    compareSnapshots Sample.flushed.world.tracker (Sample.snapshot 2 ["b", "c", "f"])
      (Sample.snapshot 1 ["a"]) = .ok (.incremental names) ∧ names.Pairwise (· < ·) ∧
      ∀ n, n ∈ names ↔ n ∈ [Event.complete (Sample.store 1) 0 (Sample.job ["a"] ["b", "c"]),
        .flush "f" 2].flatMap Event.flushed := by
  refine compareSnapshots_eq_flushed Scene.starts_opening Sample.run_listed Sample.run_flushed .nil
    Sample.shows_listed Sample.shows_flushed rfl ?_ (by decide +kernel)
  intro store now j h
  obtain ⟨-, -, rfl⟩ : store = _ ∧ now = _ ∧ j = _ := by simpa using h
  exact List.cons_ne_nil _ _

end Lineage
