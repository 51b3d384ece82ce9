import Lineage.Proofs.Graph.Classifying
import Lineage.Proofs.Recovery
import Lineage.Proofs.Service.Backups

/-!
# Finding the files that differ

A file that two snapshots are compared to differ in is one of the later snapshot's own, or was
compacted (`mem_later_or_older_of_compareSnapshots`). Along a run it is found unless its backup was
dropped and neither snapshot has it, and if all are found then nothing is missing when they are
given names in a directory (`located_unless_dropped`). Dropping backups goes by the graph as it is;
history that expires later can make a file whose backup is gone one of those that differ
(`not_located_robbed`).
-/

namespace Lineage

open Tracker World

variable {w w' : World} {later earlier : Snapshot} {names : List String} {n : String}

namespace Tracker

/-! ## What differs -/

theorem Comparison.incremental_of_restrict {c : Comparison} {keep : String → Bool}
    (h : c.restrict keep = .incremental names) :
    ∃ all, c = .incremental all ∧ ∀ n ∈ names, n ∈ all := by
  cases c with
  | full => cases h
  | incremental all =>
    cases h
    exact ⟨all, rfl, fun n hn => (List.mem_filter.mp hn).1⟩

/-- Prefixes only leave files out. -/
theorem compareNames_of_compareSnapshots {t : Tracker}
    (h : compareSnapshots t later earlier = .ok (.incremental names)) : ∃ ls es all,
      liveNames t.options later.live = .ok ls ∧ liveNames t.options earlier.live = .ok es ∧
      compareNames t.graph ls es earlier.generation t.options.maxLevels = .ok (.incremental all) ∧
      ∀ n ∈ names, n ∈ all := by
  rw [compareSnapshots] at h
  obtain ⟨ls, hls, h⟩ := except_bind_eq_ok.mp h
  obtain ⟨es, hes, h⟩ := except_bind_eq_ok.mp h
  obtain ⟨c, hc, h⟩ := except_bind_eq_ok.mp h
  dsimp only at h
  split at h
  · cases h
    exact ⟨ls, es, names, hls, hes, hc, fun n hn => hn⟩
  · obtain ⟨_, -, h⟩ := except_bind_eq_ok.mp h
    obtain ⟨_, -, h⟩ := except_bind_eq_ok.mp h
    obtain ⟨all, rfl, hall⟩ := Comparison.incremental_of_restrict (Except.ok.inj h)
    exact ⟨ls, es, all, hls, hes, hc, hall⟩

/-- A file that differs is one of the later snapshot, or the older end of an edge. -/
theorem mem_later_or_older_of_compareSnapshots {t : Tracker}
    (h : compareSnapshots t later earlier = .ok (.incremental names)) :
    ∃ ls, liveNames t.options later.live = .ok ls ∧
      ∀ n ∈ names, n ∈ ls ∨ ∃ m, n ∈ t.graph.olderThan m := by
  obtain ⟨ls, es, all, hls, -, hc, hall⟩ := compareNames_of_compareSnapshots h
  refine ⟨ls, hls, fun n hn => ?_⟩
  rw [compareNames] at hc
  obtain ⟨c, hclass, hc⟩ := except_bind_eq_ok.mp hc
  have hclassifies := Graph.classifies_of_classify (except_mapError_eq_ok.mp hclass)
  have hdifferent : n ∈ c.different := by
    split at hc
    · cases hc
      exact Std.ExtTreeSet.mem_toList.mp (hall n hn)
    · cases hc
  obtain ⟨m, hm, -, hpath⟩ := ((hclassifies.different n).mp hdifferent).1
  rcases hpath.cases_tail with rfl | ⟨k, -, hk⟩
  · exact .inl hm
  · exact .inr ⟨k, hk.2.1⟩

/-! ## What is found -/

variable {d d' : Disk} {t : Tracker} {dirs : List Path}

/-- Whether a table is to be found. -/
def Located (d : Disk) (t : Tracker) (dirs : List Path) (n : String) : Prop :=
  ∃ p, locate d t dirs n = .ok p

/-- The places where a table is looked for. -/
def candidates (t : Tracker) (dirs : List Path) (n : String) : List Path :=
  t.backupPath n :: dirs.map fun dir => SortedTable.pathIn dir n

theorem located_iff : Located d t dirs n ↔
    d.present (t.backupPath n) = true ∨
      ∃ dir ∈ dirs, d.present (SortedTable.pathIn dir n) = true := by
  have hfind : Located d t dirs n ↔ ((t.candidates dirs n).find? d.present).isSome = true := by
    unfold Located locate
    dsimp only
    split
    · rename_i p hp
      exact iff_of_true ⟨p, rfl⟩ (Option.isSome_of_eq_some hp)
    · rename_i hp
      exact iff_of_false nofun (Bool.eq_false_iff.mp (Option.isSome_eq_false_iff.mpr
        (Option.isNone_iff_eq_none.mpr hp)))
  rw [hfind, List.find?_isSome, candidates]
  constructor
  · rintro ⟨p, hp, hpresent⟩
    rcases List.mem_cons.mp hp with rfl | hp
    · exact .inl hpresent
    · obtain ⟨dir, hdir, rfl⟩ := List.mem_map.mp hp
      exact .inr ⟨dir, hdir, hpresent⟩
  · rintro (hpresent | ⟨dir, hdir, hpresent⟩)
    · exact ⟨_, List.mem_cons_self, hpresent⟩
    · exact ⟨_, List.mem_cons_of_mem _ (List.mem_map_of_mem hdir), hpresent⟩

theorem Located.grows (h : Located d t dirs n) (hd : Disk.Grows d d') : Located d' t dirs n := by
  have hpresent (p : Path) (hp : d.present p = true) : d'.present p = true := by
    rw [Disk.present_eq] at hp ⊢
    obtain ⟨k, hk⟩ := Option.isSome_iff_exists.mp hp
    rw [hd.at?_eq_some hk]
    rfl
  rw [located_iff] at h ⊢
  rcases h with h | ⟨dir, hdir, h⟩
  · exact .inl (hpresent _ h)
  · exact .inr ⟨dir, hdir, hpresent _ h⟩

/-- Giving a file one more name, unless the name is taken, adds to the disk and fails for no reason
but the disk's. -/
theorem runs_linkAll_cons {target : Path} {m : String} {rest : List String}
    {r : Except Error (List Path)} (h : Runs (linkAll dirs target (m :: rest)) w r w')
    (hm : Located w.disk w.tracker dirs m) :
    (∃ e, r = .error (.io e)) ∨ ∃ r₁ d, Disk.Grows w.disk d ∧
      Runs (linkAll dirs target rest) { w with host := { w.host with disk := d } } r₁ w' ∧
      ∀ e, r = .error e → r₁ = .error e := by
  obtain ⟨source, hsource⟩ := hm
  rw [linkAll, runs_get_bind] at h
  dsimp only at h
  rw [show locate w.host.disk w.tracker dirs m = .ok source from hsource, runs_bind, or_comm] at h
  rcases h with ⟨e, hfound, -⟩ | ⟨p, w₁, hfound, h⟩
  · cases (runs_ofExcept.mp hfound).1
  obtain ⟨-, rfl⟩ := runs_ofExcept.mp hfound
  rw [runs_bind] at h
  rcases h with ⟨u, w₂, hfirst, h⟩ | ⟨e, hfirst, rfl⟩
  · obtain ⟨r₀, d, hd, rfl, -⟩ := runs_unlessTaken hfirst
    have hgrows := Disk.grows_link _ _ _ hd
    rw [runs_bind] at h
    rcases h with ⟨links, w₃, hrest, h⟩ | ⟨e, hrest, rfl⟩
    · obtain ⟨rfl, rfl⟩ := runs_pure.mp h
      exact .inr ⟨_, d, hgrows, hrest, nofun⟩
    · exact .inr ⟨_, d, hgrows, hrest, fun e he => he ▸ rfl⟩
  · obtain ⟨r₀, d, -, -, ⟨he, -⟩ | ⟨f, he⟩⟩ := runs_unlessTaken hfirst
    · cases he
    · cases he
      exact .inl ⟨f, rfl⟩

/-- Where every file is found, giving them names fails for other reasons only. -/
theorem linkAll_ne_notLocated {target : Path} {r : Except Error (List Path)}
    (h : Runs (linkAll dirs target names) w r w')
    (hall : ∀ n ∈ names, Located w.disk w.tracker dirs n) : r ≠ .error (.notLocated n) := by
  induction names generalizing w r with
  | nil =>
    rw [(runs_pure.mp h).1]
    exact nofun
  | cons m rest ih =>
    rw [List.forall_mem_cons] at hall
    rcases runs_linkAll_cons h hall.1 with ⟨e, rfl⟩ | ⟨r₁, d, hgrows, hrest, herror⟩
    · exact nofun
    · intro he
      exact ih hrest (fun k hk => (hall.2 k hk).grows hgrows) (herror _ he)

theorem materialize_ne_notLocated {target : Path} {r : Except Error (Option (List Path))}
    (h : Runs (materialize later earlier target) w r w')
    (hcmp : compareSnapshots w.tracker later earlier = .ok (.incremental names))
    (hall : ∀ n ∈ names, Located w.disk w.tracker [later.dir, earlier.dir] n) :
    r ≠ .error (.notLocated n) := by
  rw [materialize, runs_get_bind, hcmp, runs_bind, or_comm] at h
  rcases h with ⟨e, hfound, -⟩ | ⟨c, w₁, hfound, h⟩
  · cases (runs_ofExcept.mp hfound).1
  obtain ⟨hc, rfl⟩ := runs_ofExcept.mp hfound
  cases hc
  dsimp only at h
  rw [runs_bind, or_comm] at h
  rcases h with ⟨e, hmade, rfl⟩ | ⟨u, w₂, hmade, h⟩
  · obtain ⟨r₀, d, -, he, -⟩ := World.runs_onDisk.mp hmade
    cases r₀ with
    | ok u => cases he
    | error f =>
      cases he
      exact nofun
  · obtain ⟨d, hd, rfl⟩ := World.runs_onDisk_ok.mp hmade
    rw [map_eq_pure_bind, runs_bind, or_comm] at h
    rcases h with ⟨e, hlinks, rfl⟩ | ⟨links, w₃, -, h⟩
    · intro he
      cases he
      refine linkAll_ne_notLocated hlinks (fun k hk => ?_) rfl
      exact (hall k hk).grows (Disk.grows_makeDirectories _ _ _ hd)
    · rw [(runs_pure.mp h).1]
      exact nofun

end Tracker

/-! ## Runs -/

namespace Service

variable {s s₀ : Service}

/-- A file that differs is found at every point of a run, unless its backup was dropped and neither
snapshot has it; if all of them are found, giving them names does not fail for want of one. -/
theorem located_unless_dropped (h₀ : s₀.Starts) (hrun : Reaches s₀ s) (hl : later ∈ s.taken)
    (hcmp : compareSnapshots s.world.tracker later earlier = .ok (.incremental names)) :
    (∀ n ∈ names, Located s.world.disk s.world.tracker [later.dir, earlier.dir] n ↔
      n ∉ s.dropped ∨ s.world.disk.present (SortedTable.pathIn later.dir n) = true ∨
        s.world.disk.present (SortedTable.pathIn earlier.dir n) = true) ∧
    ((∀ n ∈ names, n ∈ s.dropped →
        s.world.disk.present (SortedTable.pathIn later.dir n) = true ∨
          s.world.disk.present (SortedTable.pathIn earlier.dir n) = true) →
      ∀ (target : Path) (r : Except Error (Option (List Path))) (w : World) (n : String),
        Runs (materialize later earlier target) s.world r w → r ≠ .error (.notLocated n)) := by
  have h := h₀.sound.reaches hrun
  obtain ⟨ls, hls, hnames⟩ := mem_later_or_older_of_compareSnapshots hcmp
  have hiff : ∀ n ∈ names, Located s.world.disk s.world.tracker [later.dir, earlier.dir] n ↔
      n ∉ s.dropped ∨ s.world.disk.present (SortedTable.pathIn later.dir n) = true ∨
        s.world.disk.present (SortedTable.pathIn earlier.dir n) = true := by
    intro n hn
    simp only [located_iff, List.mem_cons, List.not_mem_nil, or_false, exists_eq_or_imp,
      exists_eq_left]
    rcases hnames n hn with hlive | ⟨m, hm⟩
    · obtain ⟨held, hholds⟩ := h.housed.holds later hl
      have hheld : held = ls := Except.ok.inj (hholds.listed.symm.trans hls)
      have hpresent := hholds.linked n (hheld ▸ hlive)
      exact iff_of_true (.inr (.inl hpresent)) (.inr (.inl hpresent))
    · have hbacked := h.backed n (h.edges m n hm).1 (.inr ⟨m, hm⟩)
      rw [Backed, ← Disk.present_eq] at hbacked
      exact or_congr_left hbacked
  refine ⟨hiff, fun hkept target r w n hran => ?_⟩
  refine materialize_ne_notLocated hran hcmp fun k hk => (hiff k hk).mpr ?_
  by_cases hdropped : k ∈ s.dropped
  · exact .inr (hkept k hk hdropped)
  · exact .inl hdropped

end Service

/-! ## A backup that is dropped too early -/

namespace Sample

open Service (Reaches)

/-- A snapshot of some files, in a directory of its own. -/
def kept (dir : String) (files : List String) : Snapshot where
  generation := 1
  dir := ⟨dir⟩
  live := .ok (files.map fun n => ⟨(path n).text, "keyTable", 1, [], []⟩)

/-- A store of one file. The files to come, and those that snapshots keep, are on the disk. -/
def serving : Service where
  world := {
    host := {
      disk := { nodes := .ofList [(["tracker"], Node.directory),
        (["tracker", "compaction-sst-backup"], Node.directory), (["db"], Node.directory),
        (["db", "a.sst"], Node.file 1), (["db", "b.sst"], Node.file 2),
        (["early"], Node.directory), (["early", "x.sst"], Node.file 0),
        (["late"], Node.directory), (["late", "x.sst"], Node.file 0),
        (["late", "c.sst"], Node.file 3)] }
      snapshots := .ofList [(([0] : Bytes), ([] : Bytes))] }
    tracker := tracker }
  live := .ofList ["x"]
  used := .ofList ["x"]
  begun := ∅
  dropped := ∅
  taken := []

def begun (s : Service) (input output : String) : Service :=
  s.begin ((beginJob (store 1) (job [input] [output])).run.run s.world).2 [input]

def completed (s : Service) (input output : String) : Service :=
  s.complete ((completeJob (store 1) 0 (job [input] [output])).run.run s.world).2 [input] [output]

/-- History expires after so many milliseconds. -/
def expired (s : Service) (now : UInt64) : Service :=
  { s with world := ((expireHistory now).run.run s.world).2 }

def trimmed (s : Service) : Service := s.drop (dropOutputBackups.run.run s.world).2

/-- A file was flushed after a snapshot and compacted into one of which a compaction began. -/
def compacting : Service :=
  begun (completed (begun ((serving.take (kept "/early" ["x"]) [1] []).flush "a") "a" "b") "a" "b")
    "b" "c"

/-- That compaction is over, and a snapshot is taken. -/
def finished (s : Service) : Service :=
  (completed s "b" "c").take (kept "/late" ["x", "c"]) [2] []

/-- History expired before the compaction was over. -/
def aged : Service := finished (expired compacting 3000000000)

/-- The same, but the backups of outputs were dropped before. -/
def robbed : Service := finished (expired (trimmed compacting) 3000000000)

theorem starts_serving : serving.Starts where
  opened := rfl
  attached := rfl
  graph := rfl
  inFlight := rfl
  rows := rfl
  snapshots := by decide +kernel
  quiet := rfl
  files n hn hdir := by
    have hnode := (Disk.at?_eq_some.mp hdir).2
    have hspot : (serving.world.tracker.backupPath n).spot =
        ["tracker", "compaction-sst-backup", n ++ String.ofList SortedTable.ending] := by
      rw [spot_backupPath hn, show serving.world.tracker.backupDir.spot =
        ["tracker", "compaction-sst-backup"] by decide +kernel]
      rfl
    rw [hspot, Disk.node?_eq (List.cons_ne_nil _ _),
      ← Std.ExtTreeMap.mem_toList_iff_getElem?_eq_some] at hnode
    have hshort : ∀ p ∈ serving.world.disk.nodes.toList, p.2 = Node.directory → p.1.length < 3 := by
      decide +kernel
    exact absurd (hshort _ hnode rfl) (lt_irrefl 3)
  live_used _ := id
  begun := rfl
  dropped := rfl
  taken := rfl

/-- A job of one file may come next. -/
abbrev Ahead (s : Service) (input output : String) : Prop :=
  SortedTable.nameAt? (path input) = some input ∧ SortedTable.nameAt? (path output) = some output ∧
    s.world.tracker.options.tracks "keyTable" = true ∧ input ∈ s.live ∧ output ∉ s.used

abbrev Begins (s : Service) (input output : String) : Prop :=
  Ahead s input output ∧
    ((beginJob (store 1) (job [input] [output])).run.run s.world).1.toOption = some ()

abbrev Completes (s : Service) (input output : String) : Prop :=
  Ahead s input output ∧ input ∈ s.begun ∧
    (s.world.tracker.compactionOf (store 1) 0 (job [input] [output])).toOption =
      some (named 1 0 input output) ∧
    ((completeJob (store 1) 0 (job [input] [output])).run.run s.world).1.toOption = some ()

abbrev Keeps (s : Service) (dir : String) (files : List String) : Prop :=
  (liveNames s.world.tracker.options (kept dir files).live).toOption = some s.live ∧
    (Path.mk dir).spot ≠ s.world.tracker.backupDir.spot ∧
    ∀ n ∈ s.live.toList, s.world.disk.present (SortedTable.pathIn ⟨dir⟩ n) = true

section
variable {s : Service} {input output dir : String} {files : List String} {key value : Bytes}

theorem Ahead.replaces (h : Ahead s input output) :
    s.Replaces (job [input] [output]) [input] [output] where
  tracked := h.2.2.1
  named_inputs := congrArg (fun n => [n]) h.1
  named_outputs := congrArg (fun n => [n]) h.2.1
  nonempty := List.cons_ne_nil _ _
  held := List.forall_mem_singleton.mpr h.2.2.2.1
  new := List.forall_mem_singleton.mpr h.2.2.2.2

theorem Begins.step (h : Begins s input output) : Service.Step s (begun s input output) :=
  .begin (Ahead.replaces h.1) (runs_of_toOption h.2)

theorem Completes.step (h : Completes s input output) (hfits : (named 1 0 input output).Fits) :
    Service.Step s (completed s input output) := by
  obtain ⟨hahead, hbegun, hc, hok⟩ := h
  refine .complete (Ahead.replaces hahead) (List.forall_mem_singleton.mpr hbegun) (fun c he => ?_)
    (runs_of_toOption hok)
  rw [eq_ok_of_toOption hc] at he
  cases he
  exact hfits

theorem Keeps.step (h : Keeps s dir files) : Service.Step s (s.take (kept dir files) key value) := by
  obtain ⟨hlive, hdir, hlinked⟩ := h
  refine .take ⟨eq_ok_of_toOption hlive, hdir, fun n hn => ?_⟩
  exact hlinked n (Std.ExtTreeSet.mem_toList.mpr hn)

end

theorem reaches_compacting : Reaches serving compacting := by
  -- All that is to be checked is one proposition, so that each state is computed once.
  obtain ⟨hlisted, hnew, hbegins, hcompletes, hagain⟩ :
      Keeps serving "/early" ["x"] ∧
      "a" ∉ (serving.take (kept "/early" ["x"]) [1] []).used ∧
      Begins ((serving.take (kept "/early" ["x"]) [1] []).flush "a") "a" "b" ∧
      Completes (begun ((serving.take (kept "/early" ["x"]) [1] []).flush "a") "a" "b") "a" "b" ∧
      Begins (completed (begun ((serving.take (kept "/early" ["x"]) [1] []).flush "a") "a" "b")
        "a" "b") "b" "c" := by
    decide +kernel
  have hfits : (named 1 0 "a" "b").Fits :=
    fits_named (short_names "a" (by simp)) (short_names "b" (by simp))
  have hflushed := (Relation.ReflTransGen.single (Keeps.step hlisted)).tail (.flush hnew)
  have hcompleted := (hflushed.tail (Begins.step hbegins)).tail
    (Completes.step hcompletes hfits)
  exact hcompleted.tail (Begins.step hagain)

theorem reaches_finished {s : Service} (h : Reaches serving s)
    (hs : Completes s "b" "c" ∧ Keeps (completed s "b" "c") "/late" ["x", "c"]) :
    Reaches serving (finished s) := by
  have hfits : (named 1 0 "b" "c").Fits :=
    fits_named (short_names "b" (by simp)) (short_names "c" (by simp))
  exact (h.tail (Completes.step hs.1 hfits)).tail (Keeps.step hs.2)

/-- The backup of a file that came out of a compaction is there after history expired. -/
theorem located_aged : serving.Starts ∧ Reaches serving aged ∧
    kept "/late" ["x", "c"] ∈ aged.taken ∧
    compareSnapshots aged.world.tracker (kept "/late" ["x", "c"]) (kept "/early" ["x"]) =
      .ok (.incremental ["b"]) ∧
    Located aged.world.disk aged.world.tracker [⟨"/late"⟩, ⟨"/early"⟩] "b" := by
  obtain ⟨hexpired, hfinished, hcmp, hdropped⟩ :
      ((expireHistory 3000000000).run.run compacting.world).1.toOption =
        some { compactions := 1, names := .ofList ["a"], backups := 1 } ∧
      (Completes (expired compacting 3000000000) "b" "c" ∧
        Keeps (completed (expired compacting 3000000000) "b" "c") "/late" ["x", "c"]) ∧
      compareSnapshots aged.world.tracker (kept "/late" ["x", "c"]) (kept "/early" ["x"]) =
        .ok (.incremental ["b"]) ∧
      "b" ∉ aged.dropped := by
    decide +kernel
  have hrun : Reaches serving aged :=
    reaches_finished (reaches_compacting.tail (.expire (runs_of_toOption hexpired))) hfinished
  have hlocated := Service.located_unless_dropped starts_serving hrun List.mem_cons_self hcmp
  exact ⟨starts_serving, hrun, List.mem_cons_self, hcmp,
    (hlocated.1 "b" List.mem_cons_self).mpr (.inl hdropped)⟩

/-- If it is dropped before history expires, it is missing from the comparison of two snapshots. -/
theorem not_located_robbed : serving.Starts ∧ Reaches serving robbed ∧
    robbed.taken = [kept "/late" ["x", "c"], kept "/early" ["x"]] ∧
    compareSnapshots robbed.world.tracker (kept "/late" ["x", "c"]) (kept "/early" ["x"]) =
      .ok (.incremental ["b"]) ∧
    ∃ w, Runs (materialize (kept "/late" ["x", "c"]) (kept "/early" ["x"]) ⟨"/out"⟩) robbed.world
      (.error (.notLocated "b")) w := by
  obtain ⟨htrimmed, hexpired, hfinished, hcmp, hmissing⟩ :
      (dropOutputBackups.run.run compacting.world).1.toOption = some 1 ∧
      ((expireHistory 3000000000).run.run (trimmed compacting).world).1.toOption =
        some { compactions := 1, names := .ofList ["a"], backups := 1 } ∧
      (Completes (expired (trimmed compacting) 3000000000) "b" "c" ∧
        Keeps (completed (expired (trimmed compacting) 3000000000) "b" "c") "/late" ["x", "c"]) ∧
      compareSnapshots robbed.world.tracker (kept "/late" ["x", "c"]) (kept "/early" ["x"]) =
        .ok (.incremental ["b"]) ∧
      ((materialize (kept "/late" ["x", "c"]) (kept "/early" ["x"]) ⟨"/out"⟩).run.run
        robbed.world).1 = .error (.notLocated "b") := by
    decide +kernel
  have hdropped : Reaches serving (trimmed compacting) :=
    reaches_compacting.tail (.drop (runs_of_toOption htrimmed))
  have hrun : Reaches serving robbed :=
    reaches_finished (hdropped.tail (.expire (runs_of_toOption hexpired))) hfinished
  exact ⟨starts_serving, hrun, rfl, hcmp, _, runs_of_fst hmissing⟩

end Sample

end Lineage
