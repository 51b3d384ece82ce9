import Lineage.Proofs.Atomicity

/-!
# Jobs that overlap

Any number of jobs are told of in any order, each of them when it begins and when it is over. A job
is pending (`Pending`) if it was last told of when it began. As long as no file is an input of two
jobs, what is remembered of files is what the store told of the inputs of the pending jobs when they
last began, and nothing else (`Holds`). So a job that is over is recorded with what the store told
of its inputs at that time (`Told.matched`).
-/

namespace Lineage

/-! ## Jobs -/

/-- A table is among the inputs of a job. -/
def Job.Replaces (j : Job) (n : String) : Prop := some n ∈ j.inputs.map SortedTable.nameAt?

/-- A job has no inputs, or its outputs are the same files. -/
def Job.idle (j : Job) : Bool := j.inputs.isEmpty || Tracker.samePaths j.inputs j.outputs

namespace Tracker

variable {t : Tracker} {w w' : World} {store : Store} {now : UInt64} {j : Job}
  {live : LiveFiles} {files : List Path} {infos : List FileInfo} {n : String} {x : FileInfo}

theorem ignores_eq_idle (h : t.options.tracks j.family = true) : t.ignores j = j.idle := by
  simp [ignores, Job.idle, h]

/-! ## What a store tells of files -/

/-- What a store tells of a file depends on no more than its name. -/
theorem exists_infoOf (h : infosOf live files = .ok infos) :
    ∃ m, ∀ x ∈ infos, infoOf m x.name = x := by
  cases live with
  | error e => cases h
  | ok live =>
    refine ⟨liveByName live, fun x hx => ?_⟩
    obtain ⟨p, -, hp⟩ := exists_of_mem_mapM h hx
    cases hn : nameAt p with
    | error e =>
      rw [hn] at hp
      cases hp
    | ok n =>
      rw [hn] at hp
      cases hp
      rw [name_infoOf]

theorem replaces_iff (h : infosOf live j.inputs = .ok infos) :
    j.Replaces n ↔ n ∈ infos.map FileInfo.name := by
  simp [Job.Replaces, map_name_of_infosOf h]

/-! ## What is remembered -/

theorem getElem?_remember {m : Std.ExtTreeMap String LiveFile}
    (h : ∀ x ∈ infos, infoOf m x.name = x) : (t.remember infos).inFlight[n]? =
      if n ∈ infos.map FileInfo.name then some (infoOf m n) else t.inFlight[n]? := by
  have hfold (flight : Std.ExtTreeMap String FileInfo) :
      (infos.foldl (fun m i => m.insert i.name i) flight)[n]? =
        if n ∈ infos.map FileInfo.name then some (infoOf m n) else flight[n]? := by
    induction infos generalizing flight with
    | nil => rfl
    | cons x rest ih =>
      rw [List.forall_mem_cons] at h
      rw [List.foldl_cons, ih h.2, Std.ExtTreeMap.getElem?_insert]
      simp only [List.map_cons, List.mem_cons, Std.compare_eq_iff_eq]
      grind
  exact hfold t.inFlight

/-- Files are recorded with what is remembered of them. -/
theorem map_remembered {now : List FileInfo}
    (hnames : now.map FileInfo.name = infos.map FileInfo.name)
    (h : ∀ x ∈ infos, t.inFlight[x.name]? = some x) : now.map t.remembered = infos := by
  induction infos generalizing now with
  | nil => rw [List.map_eq_nil_iff.mp hnames, List.map_nil]
  | cons x rest ih =>
    obtain ⟨y, ys, rfl, hy, hys⟩ := List.map_eq_cons_iff.mp hnames
    rw [List.forall_mem_cons] at h
    have hx : t.remembered y = x := by
      rw [remembered, Std.ExtTreeMap.getD_eq_getD_getElem?, hy, h.1, Option.getD_some]
    rw [List.map_cons, hx, ih hys h.2]

/-! ## One event -/

/-- A job that begins is remembered with what the store tells of its inputs, unless it is idle. -/
theorem inFlight_beginJob {u : Unit} (ht : Tracking w)
    (h : Runs (beginJob store j) w (.ok u) w') :
    w.tracker.ignores j = true ∧ w'.tracker = w.tracker ∨
      w.tracker.ignores j = false ∧ ∃ infos, infosOf store.live j.inputs = .ok infos ∧
        (∀ x ∈ infos, w'.tracker.inFlight[x.name]? = some x) ∧
        ∀ n, ¬ j.Replaces n → w'.tracker.inFlight[n]? = w.tracker.inFlight[n]? := by
  rw [beginJob, runs_get_bind] at h
  split at h
  · rename_i hi
    rw [(runs_pure.mp h).2]
    exact .inl ⟨hi, rfl⟩
  rename_i hi
  obtain ⟨b, w₁, hrec, h⟩ := runs_bind_ok.mp h
  obtain ⟨hasked, hb⟩ := runs_recording hrec
  rw [(hb b rfl).mpr ht] at h
  simp only [if_true, runs_bind_ok, runs_ofExcept, World.runs_update] at h
  obtain ⟨infos, _, ⟨hin, rfl⟩, _, _, ⟨-, rfl⟩, h⟩ := h
  have hkeeps := moves_backUpAll _ _ _ h
  simp only [Fixes, World.rest, Prod.mk.injEq] at hkeeps
  obtain ⟨m, hm⟩ := exists_infoOf hin.symm
  refine .inr ⟨by simpa using hi, infos, hin.symm, fun x hx => ?_, fun n hn => ?_⟩
  · rw [hkeeps.1, getElem?_remember hm, if_pos (List.mem_map_of_mem hx), hm x hx]
  · rw [replaces_iff hin.symm] at hn
    rw [hkeeps.1, getElem?_remember hm, if_neg hn, hasked.tracker]

/-- A job that is over is forgotten, unless it is idle. -/
theorem inFlight_completeJob {u : Unit} (ht : Tracking w) (hn : w.tracker.NamesFlight)
    (h : Runs (completeJob store now j) w (.ok u) w') :
    w.tracker.ignores j = true ∧ w'.tracker = w.tracker ∨
      w.tracker.ignores j = false ∧ (∀ n, j.Replaces n → w'.tracker.inFlight[n]? = none) ∧
        ∀ n, ¬ j.Replaces n → w'.tracker.inFlight[n]? = w.tracker.inFlight[n]? := by
  rcases completeJob_ok h with ⟨hi, rfl⟩ | ⟨hi, -, rfl⟩ | ⟨hi, -, c, hc, ⟨hnot, -⟩ | ⟨-, hrec⟩⟩
  · exact .inl ⟨hi, rfl⟩
  · have hmem (n : String) : n ∈ j.inputs.filterMap SortedTable.nameAt? ↔ j.Replaces n := by
      rw [List.mem_filterMap, Job.Replaces, List.mem_map]
    refine .inr ⟨hi, fun n hn => ?_, fun n hn => ?_⟩ <;> simp [getElem?_forget, hmem, hn]
  · exact absurd ht hnot
  · have hmem (n : String) : n ∈ c.inputNames ↔ j.Replaces n := mem_inputNames hn hc
    refine .inr ⟨hi, fun n hr => ?_, fun n hr => ?_⟩
    · rw [hrec.tracker, inFlight_recorded, if_pos ((hmem n).mpr hr)]
    · rw [hrec.tracker, inFlight_recorded, if_neg (mt (hmem n).mp hr)]

/-! ## Notices -/

/-- A tracker is told of one of some jobs. -/
inductive Notice (ι : Type) where
  | begins (i : ι) (store : Store)
  | completes (i : ι) (store : Store) (now : UInt64)

variable {ι : Type} {i k : ι} {s : Store} {e : Notice ι} {es : List (Notice ι)} {jobs : ι → Job}

/-- The job that is told of. -/
def Notice.job : Notice ι → ι
  | .begins i _ => i
  | .completes i _ _ => i

/-- The last that was told of a job is that it begins, and this is what the store was like then. -/
def Pending (i : ι) (s : Store) (es : List (Notice ι)) : Prop :=
  ∃ before after, es = before ++ .begins i s :: after ∧ ∀ e ∈ after, e.job ≠ i

theorem not_pending_nil : ¬ Pending i s [] := by
  rintro ⟨before, after, h, -⟩
  simp at h

theorem pending_concat :
    Pending i s (es ++ [e]) ↔ e = .begins i s ∨ e.job ≠ i ∧ Pending i s es := by
  constructor
  · rintro ⟨before, after, h, hafter⟩
    rcases List.eq_nil_or_concat after with rfl | ⟨after, e', rfl⟩
    · exact .inl (List.singleton_inj.mp (List.append_inj' h rfl).2)
    · rw [List.concat_eq_append] at h hafter
      rw [← List.cons_append, ← List.append_assoc] at h
      obtain ⟨rfl, he⟩ := List.append_inj' h rfl
      obtain rfl := List.singleton_inj.mp he
      rw [List.forall_mem_append, List.forall_mem_singleton] at hafter
      exact .inr ⟨hafter.2, before, after, rfl, hafter.1⟩
  · rintro (rfl | ⟨he, before, after, rfl, hafter⟩)
    · exact ⟨es, [], rfl, nofun⟩
    · refine ⟨before, after ++ [e], by simp, ?_⟩
      simpa [or_imp, forall_and] using ⟨hafter, he⟩

/-- A tracker is told of jobs of tracked families while compactions are recorded. Each of them begins
before it is over, and all goes well. In between, anything may change but what is remembered of
files. -/
inductive Told (jobs : ι → Job) (w : World) : List (Notice ι) → World → Prop where
  | start : Told jobs w [] w
  | begins {es : List (Notice ι)} {w₁ w' : World} {i : ι} {store : Store}
      (before : Told jobs w es w₁) (tracking : Tracking w₁)
      (tracked : w₁.tracker.options.tracks (jobs i).family = true)
      (ran : Runs (beginJob store (jobs i)) w₁ (.ok ()) w') :
      Told jobs w (es ++ [.begins i store]) w'
  | completes {es : List (Notice ι)} {w₁ w' : World} {i : ι} {s store : Store} {now : UInt64}
      (before : Told jobs w es w₁) (pending : Pending i s es) (tracking : Tracking w₁)
      (tracked : w₁.tracker.options.tracks (jobs i).family = true)
      (ran : Runs (completeJob store now (jobs i)) w₁ (.ok ()) w') :
      Told jobs w (es ++ [.completes i store now]) w'
  | change {es : List (Notice ι)} {w₁ w' : World} (before : Told jobs w es w₁)
      (flight : w'.tracker.inFlight = w₁.tracker.inFlight) : Told jobs w es w'

/-- What is remembered of files is what the store told of the inputs of pending jobs. -/
structure Holds (jobs : ι → Job) (es : List (Notice ι)) (t : Tracker) : Prop where
  names : t.NamesFlight
  held : ∀ i s, Pending i s es → (jobs i).idle = false → ∃ infos,
    infosOf s.live (jobs i).inputs = .ok infos ∧ ∀ x ∈ infos, t.inFlight[x.name]? = some x
  origin : ∀ (n : String) (x : FileInfo), t.inFlight[n]? = some x →
    ∃ i s, Pending i s es ∧ (jobs i).idle = false ∧ (jobs i).Replaces n

/-- No file is an input of two jobs. -/
def Apart (jobs : ι → Job) : Prop :=
  ∀ i k n, (jobs i).Replaces n → (jobs k).Replaces n → i = k

/-- Nothing is remembered of the inputs of a job that is idle. -/
theorem Holds.none_of_idle (ha : Apart jobs) (h : Holds jobs es t) (hi : (jobs i).idle = true)
    (hn : (jobs i).Replaces n) : t.inFlight[n]? = none := by
  rw [Option.eq_none_iff_forall_ne_some]
  intro x hx
  obtain ⟨k, s, -, hk, hkn⟩ := h.origin n x hx
  rw [ha k i n hkn hn, hi] at hk
  cases hk

/-- A notice changes no more than what is remembered of the inputs of the job that it is about. -/
theorem Holds.concat {t' : Tracker} (ha : Apart jobs) (h : Holds jobs es t)
    (hnames : t'.NamesFlight)
    (hrest : ∀ n, ¬ (jobs e.job).Replaces n → t'.inFlight[n]? = t.inFlight[n]?)
    (hheld : ∀ i s, e = .begins i s → (jobs i).idle = false → ∃ infos,
      infosOf s.live (jobs i).inputs = .ok infos ∧ ∀ x ∈ infos, t'.inFlight[x.name]? = some x)
    (horigin : ∀ n x, (jobs e.job).Replaces n → t'.inFlight[n]? = some x →
      (jobs e.job).idle = false ∧ ∃ s, e = .begins e.job s) :
    Holds jobs (es ++ [e]) t' := by
  refine ⟨hnames, fun k s hp hk => ?_, fun n x hx => ?_⟩
  · rcases pending_concat.mp hp with he | ⟨hne, hp⟩
    · exact hheld k s he hk
    · obtain ⟨infos, hinfos, hmem⟩ := h.held k s hp hk
      refine ⟨infos, hinfos, fun x hx => ?_⟩
      have hx' : (jobs k).Replaces x.name := (replaces_iff hinfos).mpr (List.mem_map_of_mem hx)
      rw [hrest x.name fun hx'' => hne (ha _ _ _ hx'' hx'), hmem x hx]
  · by_cases hn : (jobs e.job).Replaces n
    · obtain ⟨hbusy, s, hs⟩ := horigin n x hn hx
      exact ⟨e.job, s, pending_concat.mpr (.inl hs), hbusy, hn⟩
    · obtain ⟨k, s, hp, hk, hkn⟩ := h.origin n x (hrest n hn ▸ hx)
      refine ⟨k, s, pending_concat.mpr (.inr ⟨?_, hp⟩), hk, hkn⟩
      rintro rfl
      exact hn hkn

theorem Holds.begins (ha : Apart jobs) (h : Holds jobs es w.tracker) (ht : Tracking w)
    (hi : w.tracker.options.tracks (jobs i).family = true)
    (hr : Runs (beginJob store (jobs i)) w (.ok ()) w') :
    Holds jobs (es ++ [.begins i store]) w'.tracker := by
  have hnames := h.names.beginJob hr
  have hflight := inFlight_beginJob ht hr
  rw [ignores_eq_idle hi] at hflight
  rcases hflight with ⟨hidle, hsame⟩ | ⟨hbusy, infos, hinfos, hmem, hrest⟩
  · refine h.concat ha hnames (fun n _ => by rw [hsame]) ?_ fun n x hn hx => ?_
    · rintro _ _ ⟨⟩ hbusy
      cases hidle.symm.trans hbusy
    · rw [hsame, h.none_of_idle ha hidle hn] at hx
      cases hx
  · refine h.concat ha hnames hrest ?_ fun n x _ _ => ⟨hbusy, store, rfl⟩
    rintro _ _ ⟨⟩ -
    exact ⟨infos, hinfos, hmem⟩

theorem Holds.completes (ha : Apart jobs) (h : Holds jobs es w.tracker) (ht : Tracking w)
    (hi : w.tracker.options.tracks (jobs i).family = true)
    (hr : Runs (completeJob store now (jobs i)) w (.ok ()) w') :
    Holds jobs (es ++ [.completes i store now]) w'.tracker := by
  have hflight := inFlight_completeJob ht h.names hr
  rw [ignores_eq_idle hi] at hflight
  have hgone (n : String) (hn : (jobs i).Replaces n) : w'.tracker.inFlight[n]? = none := by
    rcases hflight with ⟨hidle, hsame⟩ | ⟨-, hgone, -⟩
    · rw [hsame, h.none_of_idle ha hidle hn]
    · exact hgone n hn
  have hrest (n : String) (hn : ¬ (jobs i).Replaces n) :
      w'.tracker.inFlight[n]? = w.tracker.inFlight[n]? := by
    rcases hflight with ⟨-, hsame⟩ | ⟨-, -, hrest⟩
    · rw [hsame]
    · exact hrest n hn
  refine h.concat ha (h.names.completeJob hr) hrest nofun fun n x hn hx => ?_
  cases (hgone n hn).symm.trans hx

theorem Told.holds (ha : Apart jobs) (hempty : w.tracker.inFlight = ∅) (h : Told jobs w es w') :
    Holds jobs es w'.tracker := by
  induction h with
  | start =>
    refine ⟨fun n x hx => ?_, fun i s hp => absurd hp not_pending_nil, fun n x hx => ?_⟩ <;>
      simp [hempty] at hx
  | begins _ tracking tracked ran ih => exact ih.begins ha tracking tracked ran
  | completes _ _ tracking tracked ran ih => exact ih.completes ha tracking tracked ran
  | change _ flight ih =>
    obtain ⟨hnames, hheld, horigin⟩ := ih
    rw [← flight] at hheld horigin
    exact ⟨by rwa [NamesFlight, flight], hheld, horigin⟩

/-- A pending job that is over is recorded with what the store told of its inputs when it last
began. -/
theorem Holds.recorded (h : Holds jobs es w.tracker) (hp : Pending i s es) (ht : Tracking w)
    (hi : w.tracker.options.tracks (jobs i).family = true) (hbusy : (jobs i).idle = false)
    (hout : (jobs i).outputs ≠ []) (hr : Runs (completeJob store now (jobs i)) w (.ok ()) w') :
    ∃ inputs outputs, infosOf s.live (jobs i).inputs = .ok inputs ∧
      infosOf store.live (jobs i).outputs = .ok outputs ∧
      Recorded ⟨store.sequence, now, inputs, outputs, (jobs i).reason⟩ w w' := by
  rcases completeJob_ok hr with ⟨hi', -⟩ | ⟨-, ho, -⟩ | ⟨-, -, c, hc, ⟨hnot, -⟩ | ⟨-, hrec⟩⟩
  · rw [ignores_eq_idle hi, hbusy] at hi'
    cases hi'
  · exact absurd ho hout
  · exact absurd ht hnot
  · obtain ⟨infos, outputs, hin, houtputs, rfl⟩ := compactionOf_eq_ok.mp hc
    obtain ⟨inputs, hinputs, hmem⟩ := h.held i s hp hbusy
    have hnames : infos.map FileInfo.name = inputs.map FileInfo.name := by
      refine (List.map_inj_right fun _ _ => Option.some.inj).mp ?_
      rw [List.map_map, List.map_map]
      exact (map_name_of_infosOf hin).symm.trans (map_name_of_infosOf hinputs)
    rw [map_remembered hnames hmem] at hrec
    exact ⟨inputs, outputs, hinputs, houtputs, hrec⟩

/-- A job that is idle or has no outputs is recorded nowhere. -/
theorem completeJob_unrecorded (hi : w.tracker.options.tracks j.family = true)
    (hnone : j.idle = true ∨ j.outputs = []) (hr : Runs (completeJob store now j) w (.ok ()) w') :
    w'.host.history = w.host.history ∧ w'.tracker.graph = w.tracker.graph := by
  rcases completeJob_ok hr with ⟨-, rfl⟩ | ⟨-, -, rfl⟩ | ⟨hbusy, ho, -⟩
  · exact ⟨rfl, rfl⟩
  · exact ⟨rfl, rfl⟩
  · rw [ignores_eq_idle hi] at hbusy
    simp [hbusy, ho] at hnone

/-- However jobs overlap of which no two have an input in common: once none of them is pending,
nothing is remembered of files. One that is pending and then is over is recorded, unless it is idle
or has no outputs; as its inputs it is recorded with what the store told of them when it last began,
and as its outputs with what the store tells of them now. -/
theorem Told.matched (ha : Apart jobs) (hempty : w.tracker.inFlight = ∅) (h : Told jobs w es w') :
    ((∀ i s, ¬ Pending i s es) → w'.tracker.inFlight = ∅) ∧
    ∀ i s store now w'', Pending i s es → Tracking w' →
      w'.tracker.options.tracks (jobs i).family = true →
      Runs (completeJob store now (jobs i)) w' (.ok ()) w'' →
      ((jobs i).idle = false → (jobs i).outputs ≠ [] → ∃ inputs outputs,
        infosOf s.live (jobs i).inputs = .ok inputs ∧
        infosOf store.live (jobs i).outputs = .ok outputs ∧
        Recorded ⟨store.sequence, now, inputs, outputs, (jobs i).reason⟩ w' w'') ∧
      ((jobs i).idle = true ∨ (jobs i).outputs = [] →
        w''.host.history = w'.host.history ∧ w''.tracker.graph = w'.tracker.graph) := by
  have hholds := h.holds ha hempty
  constructor
  · intro hnone
    refine Std.ExtTreeMap.ext_getElem? fun n => ?_
    rw [Std.ExtTreeMap.getElem?_empty, Option.eq_none_iff_forall_ne_some]
    intro x hx
    obtain ⟨i, s, hp, -⟩ := hholds.origin n x hx
    exact hnone i s hp
  · intro i s store now w'' hp ht hi hr
    exact ⟨fun hbusy hout => hholds.recorded hp ht hi hbusy hout hr,
      fun hnone => completeJob_unrecorded hi hnone hr⟩

end Tracker

end Lineage

/-! ## Two jobs that overlap -/

namespace Lineage.Sample

open Tracker (Apart Told Notice Pending Tracking Recorded beginJob completeJob infosOf)

/-- A tracker of a store that reads from two files. -/
def hearing : World where
  host := {
    disk := { nodes := .ofList [(["tracker"], Node.directory),
      (["tracker", "compaction-sst-backup"], Node.directory), (["db"], Node.directory),
      (["db", "a.sst"], Node.file 0), (["db", "b.sst"], Node.file 1)] }
    snapshots := fresh.host.snapshots }
  tracker := tracker

/-- The store while one of its files holds some number of keys. -/
def holding (sequence : UInt64) (n : String) (keys : UInt64) : Store where
  sequence
  live := .ok [⟨(path n).text, "keyTable", keys, [1], [9]⟩]

/-- What the store tells of this file. -/
def infoHolding (n : String) (keys : UInt64) : FileInfo where
  name := n
  first := some [1]
  last := some [9]
  family := some "keyTable"
  keys := some keys

/-- Each of two files is made into another. -/
def bothJobs (second : Bool) : Job := if second then job ["b"] ["y"] else job ["a"] ["x"]

theorem inputs_bothJobs (i : Bool) : (bothJobs i).inputs.map SortedTable.nameAt? =
    [some (if i then "b" else "a")] := by
  revert i
  decide +kernel

theorem apart_bothJobs : Apart bothJobs := by
  intro i k n hi hk
  rw [Job.Replaces, inputs_bothJobs, List.mem_singleton] at hi hk
  have hsame := Option.some.inj (hi.symm.trans hk)
  revert hsame
  cases i <;> cases k <;> decide

/-- What a world comes to. -/
def after (a : World.Action Tracker.Error Unit) (w : World) : World := (a.run.run w).2

/-- What is to be checked for a tracker to be told of a job while compactions are recorded. -/
abbrev Hears (w : World) (j : Job) (a : World.Action Tracker.Error Unit) : Prop :=
  w.tracker.closed = false ∧ w.tracker.attached = true ∧ w.host.snapshots.isEmpty = false ∧
    w.tracker.options.tracks j.family = true ∧ (a.run.run w).1.toOption = some ()

theorem Hears.tracking {w : World} {j : Job} {a : World.Action Tracker.Error Unit}
    (h : Hears w j a) : Tracking w :=
  ⟨h.1, h.2.1, h.2.2.1⟩

theorem told_begins {es : List (Notice Bool)} {w : World} {i : Bool} {store : Store}
    (h : Told bothJobs hearing es w) (hr : Hears w (bothJobs i) (beginJob store (bothJobs i))) :
    Told bothJobs hearing (es ++ [.begins i store]) (after (beginJob store (bothJobs i)) w) :=
  .begins h hr.tracking hr.2.2.2.1 (runs_of_toOption hr.2.2.2.2)

theorem told_completes {es : List (Notice Bool)} {w : World} {i : Bool} {s store : Store}
    {now : UInt64} (h : Told bothJobs hearing es w) (hp : Pending i s es)
    (hr : Hears w (bothJobs i) (completeJob store now (bothJobs i))) :
    Told bothJobs hearing (es ++ [.completes i store now])
      (after (completeJob store now (bothJobs i)) w) :=
  .completes h hp hr.tracking hr.2.2.2.1 (runs_of_toOption hr.2.2.2.2)

/-- The first job begins. -/
def begunFirst : World := after (beginJob (holding 1 "a" 10) (bothJobs false)) hearing

/-- The second one begins. -/
def begunBoth : World := after (beginJob (holding 2 "b" 20) (bothJobs true)) begunFirst

/-- The first one begins once more. -/
def begunAgain : World := after (beginJob (holding 3 "a" 30) (bothJobs false)) begunBoth

/-- The second one is over. -/
def overSecond : World := after (completeJob (holding 4 "y" 40) 100 (bothJobs true)) begunAgain

/-- And so is the first one. -/
def overBoth : World := after (completeJob (holding 5 "x" 50) 200 (bothJobs false)) overSecond

def beginnings : List (Notice Bool) :=
  [.begins false (holding 1 "a" 10), .begins true (holding 2 "b" 20),
    .begins false (holding 3 "a" 30)]

/-- What was told of the two jobs before the first one is over. -/
def notices : List (Notice Bool) := beginnings ++ [.completes true (holding 4 "y" 40) 100]

theorem hears_notices :
    Hears hearing (bothJobs false) (beginJob (holding 1 "a" 10) (bothJobs false)) ∧
    Hears begunFirst (bothJobs true) (beginJob (holding 2 "b" 20) (bothJobs true)) ∧
    Hears begunBoth (bothJobs false) (beginJob (holding 3 "a" 30) (bothJobs false)) ∧
    Hears begunAgain (bothJobs true) (completeJob (holding 4 "y" 40) 100 (bothJobs true)) ∧
    Hears overSecond (bothJobs false) (completeJob (holding 5 "x" 50) 200 (bothJobs false)) := by
  decide +kernel

theorem told_notices : Told bothJobs hearing notices overSecond := by
  obtain ⟨h₁, h₂, h₃, h₄, -⟩ := hears_notices
  have hfirst : Told bothJobs hearing [.begins false (holding 1 "a" 10)] begunFirst :=
    told_begins .start h₁
  have hboth : Told bothJobs hearing
      [.begins false (holding 1 "a" 10), .begins true (holding 2 "b" 20)] begunBoth :=
    told_begins hfirst h₂
  have hagain : Told bothJobs hearing beginnings begunAgain := told_begins hboth h₃
  have hpending : Pending true (holding 2 "b" 20) beginnings :=
    ⟨[.begins false (holding 1 "a" 10)], [.begins false (holding 3 "a" 30)], rfl,
      by simp [Notice.job]⟩
  exact told_completes hagain hpending h₄

theorem pending_notices : Pending false (holding 3 "a" 30) notices :=
  ⟨[.begins false (holding 1 "a" 10), .begins true (holding 2 "b" 20)],
    [.completes true (holding 4 "y" 40) 100], rfl, by simp [Notice.job]⟩

/-- The first job is recorded with what the store told of its input when it began once more. -/
theorem matched_notices :
    Apart bothJobs ∧ hearing.tracker.inFlight = ∅ ∧ Told bothJobs hearing notices overSecond ∧
    Pending false (holding 3 "a" 30) notices ∧ Tracking overSecond ∧
    overSecond.tracker.options.tracks (bothJobs false).family = true ∧
    (bothJobs false).idle = false ∧ (bothJobs false).outputs ≠ [] ∧
    Runs (completeJob (holding 5 "x" 50) 200 (bothJobs false)) overSecond (.ok ()) overBoth ∧
    Recorded ⟨5, 200, [infoHolding "a" 30], [infoHolding "x" 50], none⟩ overSecond overBoth ∧
    Told bothJobs hearing (notices ++ [.completes false (holding 5 "x" 50) 200]) overBoth ∧
    overBoth.tracker.inFlight = ∅ := by
  have hears := hears_notices.2.2.2.2
  have hover : Told bothJobs hearing (notices ++ [.completes false (holding 5 "x" 50) 200])
      overBoth := told_completes told_notices pending_notices hears
  have hrun : Runs (completeJob (holding 5 "x" 50) 200 (bothJobs false)) overSecond (.ok ())
      overBoth := runs_of_toOption hears.2.2.2.2
  have hbusy : (bothJobs false).idle = false := by decide +kernel
  have houtputs : (bothJobs false).outputs ≠ [] := List.cons_ne_nil _ _
  have hin : infosOf (holding 3 "a" 30).live (bothJobs false).inputs =
      .ok [infoHolding "a" 30] := eq_ok_of_toOption (by decide +kernel)
  have hout : infosOf (holding 5 "x" 50).live (bothJobs false).outputs =
      .ok [infoHolding "x" 50] := eq_ok_of_toOption (by decide +kernel)
  obtain ⟨inputs, outputs, hin', hout', hrec⟩ := ((told_notices.matched apart_bothJobs rfl).2
    false _ _ _ _ pending_notices hears.tracking hears.2.2.2.1 hrun).1 hbusy houtputs
  rw [hin, Except.ok.injEq] at hin'
  rw [hout, Except.ok.injEq] at hout'
  rw [← hin', ← hout'] at hrec
  have hnone (i : Bool) (s : Store) :
      ¬ Pending i s (notices ++ [.completes false (holding 5 "x" 50) 200]) := by
    rw [notices, Tracker.pending_concat, Tracker.pending_concat]
    cases i <;> simp [Notice.job]
  exact ⟨apart_bothJobs, rfl, told_notices, pending_notices, hears.tracking, hears.2.2.2.1, hbusy,
    houtputs, hrun, hrec, hover, (hover.matched apart_bothJobs rfl).1 hnone⟩

end Lineage.Sample
