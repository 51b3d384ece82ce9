import Lineage.Proofs.Confinement

/-!
# Recording is all or nothing

What a tracker remembers of files is kept under their names in every world that it comes to
(`InUse.namesFlight`). So a completed job that is recorded takes its inputs, and nothing else, out of
what is remembered, while its row, its edges and its key in the queue come to be together; any other
outcome leaves history, graph and queue as they were (`completeJob_atomic`).
-/

namespace Lineage.Tracker

open World (onDisk onHost update)

variable {w w' : World} {c : Compaction} {store : Store} {now : UInt64} {j : Job}

/-! ## Stripping -/

/-- Nothing of the tracker changed but its queue and its counts. -/
abbrev Counting : World → World → Prop := Fixes fun w => w.tracker.uncounted

theorem counting_onHost {ε ε' α : Type} {wrap : ε → ε'} {a : Host.Action ε α} :
    Moves Counting (onHost wrap a) := by
  intro w r w' h
  exact congrArg uncounted (fixes_onHost w r w' h)

theorem counting_update {ε : Type} {f : Tracker → Tracker}
    (hf : ∀ t : Tracker, (f t).uncounted = t.uncounted) :
    Moves Counting (update f : World.Action ε Unit) := by
  intro w r w' h
  rw [(World.runs_update.mp h).2]
  exact hf w.tracker

theorem counting_stripBackup {path : Path} : Moves Counting (stripBackup path) :=
  moves_bind moves_get fun _ => moves_bind (moves_discard counting_onHost) fun _ =>
    moves_bind (moves_discard counting_onHost) fun _ => moves_bind counting_onHost fun _ =>
      counting_onHost

theorem counting_stripInputs {run : StripRun} {is : List FileInfo} :
    Moves Counting (stripInputs run is) := by
  induction is generalizing run with
  | nil => exact moves_pure
  | cons i rest ih =>
    have hmore {run : StripRun} {i' : FileInfo} : Moves Counting (do
        let x ← stripInputs run rest
        return (i' :: x.1, x.2)) := moves_bind ih fun _ => moves_pure
    refine moves_bind moves_get fun w => ?_
    dsimp only
    split
    · exact hmore
    · split
      · exact moves_bind counting_stripBackup fun _ =>
          moves_bind (counting_update fun _ => rfl) fun _ => hmore
      · exact moves_bind (counting_update fun _ => rfl) fun _ => hmore

theorem counting_stripCompaction {run : StripRun} {key : Bytes} :
    Moves Counting (stripCompaction run key) := by
  refine moves_bind counting_onHost fun row => ?_
  cases row with
  | none => exact moves_pure
  | some row =>
    refine moves_bind moves_ofExcept fun c => moves_bind counting_stripInputs fun x => ?_
    dsimp only
    split
    · refine moves_bind counting_onHost fun row => ?_
      split
      · exact moves_bind counting_onHost fun _ => moves_pure
      · exact moves_pure
    · exact moves_pure

theorem counting_stripQueued {left : Nat} {run : StripRun} :
    Moves Counting (stripQueued left run) := by
  induction left generalizing run with
  | zero => exact moves_pure
  | succ left ih =>
    refine moves_bind moves_get fun w => ?_
    split
    · refine moves_bind (moves_tryCatch counting_stripCompaction fun e => ?_) fun _ => ?_
      · exact moves_bind (counting_update fun _ => rfl) fun _ => moves_throw
      · exact moves_bind (counting_update fun _ => rfl) fun _ => ih
    · exact moves_pure

theorem counting_stripBackups : Moves Counting stripBackups := by
  refine moves_bind moves_get fun w => ?_
  dsimp only
  split
  · split
    · exact moves_bind (counting_update fun _ => rfl) fun _ => counting_stripQueued
    · exact moves_bind moves_throw fun _ => moves_bind (counting_update fun _ => rfl) fun _ =>
        counting_stripQueued
  · exact moves_pure

/-! ## Worlds that a tracker comes to -/

/-- Worlds that a tracker comes to from when it is opened: events are told to it, it loads its
history, and upkeep is done, all of it ending one way or the other. In between, anything may change
but what the tracker remembers of files. -/
inductive InUse : World → Prop where
  | opened {host : Host} {dir : Path} {options : Options} : InUse ⟨host, { dir, options }⟩
  | begin {w w' : World} {store : Store} {j : Job} {r : Except Error Unit} (before : InUse w)
      (ran : Runs (beginJob store j) w r w') : InUse w'
  | complete {w w' : World} {store : Store} {now : UInt64} {j : Job} {r : Except Error Unit}
      (before : InUse w) (ran : Runs (completeJob store now j) w r w') : InUse w'
  | load {w w' : World} {r : Except Error Loaded} (before : InUse w)
      (ran : Runs loadHistory w r w') : InUse w'
  | expire {w w' : World} {now : UInt64} {r : Except UpkeepError Expired} (before : InUse w)
      (ran : Runs (expireHistory now) w r w') : InUse w'
  | drop {w w' : World} {r : Except UpkeepError Nat} (before : InUse w)
      (ran : Runs dropOutputBackups w r w') : InUse w'
  | strip {w w' : World} {r : Except UpkeepError StripRun} (before : InUse w)
      (ran : Runs stripBackups w r w') : InUse w'
  | change {w w' : World} (before : InUse w)
      (flight : w'.tracker.inFlight = w.tracker.inFlight) : InUse w'

theorem inFlight_foldl_load {rows : List (Bytes × Compaction)} {t : Tracker} :
    (rows.foldl load t).inFlight = t.inFlight := by
  induction rows generalizing t with
  | nil => rfl
  | cons row rows ih =>
    rw [List.foldl_cons, ih, load_eq]
    split
    · rw [inFlight_enqueue]
    · rfl

theorem NamesFlight.beginJob {r : Except Error Unit} (h : w.tracker.NamesFlight)
    (hr : Runs (beginJob store j) w r w') : w'.tracker.NamesFlight := by
  rcases (runs_beginJob hr).1 with ht | ⟨infos, ht⟩
  · exact ht ▸ h
  · exact ht ▸ h.remember infos

theorem NamesFlight.completeJob {r : Except Error Unit} (h : w.tracker.NamesFlight)
    (hr : Runs (completeJob store now j) w r w') : w'.tracker.NamesFlight := by
  cases r with
  | error e => exact (completeJob_error hr).1 ▸ h
  | ok u =>
    rcases completeJob_ok hr with ⟨-, rfl⟩ | ⟨-, -, rfl⟩ | ⟨-, -, c, -, ⟨-, ha⟩ | ⟨-, hrec⟩⟩
    · exact h
    · exact h.forget _
    · exact ha.tracker ▸ h
    · rw [hrec.tracker]
      exact h.recorded _

theorem InUse.namesFlight (h : InUse w) : w.tracker.NamesFlight := by
  have keep {t t' : Tracker} (ht : t.NamesFlight) (he : t'.inFlight = t.inFlight) :
      t'.NamesFlight := by rwa [NamesFlight, he]
  induction h with
  | opened =>
    intro n i hi
    rw [Std.ExtTreeMap.getElem?_empty] at hi
    cases hi
  | begin _ ran ih => exact ih.beginJob ran
  | complete _ ran ih => exact ih.completeJob ran
  | load _ ran ih =>
    rcases tracker_of_loadHistory ran with ht | ⟨read, -, ht⟩
    · exact ht ▸ ih
    · exact keep ih (ht ▸ inFlight_foldl_load)
  | expire _ ran ih =>
    obtain ⟨names, hexp, -⟩ := runs_expireHistory ran
    exact keep ih (by rw [hexp.tracker])
  | drop _ ran ih =>
    rcases runs_dropOutputBackups ran with ⟨-, rfl⟩ | ⟨-, ran⟩
    · exact ih
    · have ht : _ = _ := congrArg Prod.fst (removeBackups_within ran).1
      exact keep ih (congrArg Tracker.inFlight ht)
  | strip _ ran ih =>
    have hflight := congrArg Tracker.inFlight (counting_stripBackups _ _ _ ran : _ = _)
    exact keep ih hflight
  | change _ flight ih => exact keep ih flight

/-! ## Completed jobs -/

theorem queue_enqueue {t : Tracker} {key : Bytes} :
    (t.enqueue key).queue = if key ∈ t.queue then t.queue else t.queue ++ [key] := by
  rw [enqueue]
  simp only [List.contains_iff_mem]
  split <;> rfl

theorem queue_forget {t : Tracker} (names : List String) : (t.forget names).queue = t.queue := rfl

theorem queue_recorded {t : Tracker} {key : Bytes} : (t.recorded c key).queue =
    if t.options.stripValues ∧ key ∉ t.queue then t.queue ++ [key] else t.queue := by
  rw [recorded_eq]
  by_cases hs : t.options.stripValues
  · by_cases hk : key ∈ t.queue <;> simp [hs, hk, queue_enqueue, queue_forget]
  · simp [hs, queue_forget]

theorem inFlight_recorded {t : Tracker} {key : Bytes} {n : String} :
    (t.recorded c key).inFlight[n]? = if n ∈ c.inputNames then none else t.inFlight[n]? := by
  rw [recorded_eq]
  split
  · rw [inFlight_enqueue]
    exact getElem?_forget
  · exact getElem?_forget

/-- The names of a compaction's inputs are those of the job's. -/
theorem mem_inputNames {t : Tracker} {n : String} (ht : t.NamesFlight)
    (hc : t.compactionOf store now j = .ok c) :
    n ∈ c.inputNames ↔ some n ∈ j.inputs.map SortedTable.nameAt? := by
  obtain ⟨inputs, -, hin, -, -⟩ := compactionOf_eq_ok.mp hc
  have hnames : j.inputs.map SortedTable.nameAt? = (inputs.map FileInfo.name).map some := by
    rw [map_name_of_infosOf hin, List.map_map]
    rfl
  rw [inputNames_of_compactionOf hc ht hnames, hnames]
  simp

/-- A completed job that fails leaves history and tracker as they were. One that goes through either
is recorded, and then its row, its edges, its key in the queue and the end of what was remembered of
its inputs come together, or it is not, and history, graph and queue stay as they were. -/
theorem completeJob_atomic {r : Except Error Unit} (hw : InUse w)
    (h : Runs (completeJob store now j) w r w') :
    (∀ e, r = .error e → w'.host.history = w.host.history ∧ w'.tracker = w.tracker) ∧
    (r = .ok () →
      (records w j = true ∧ ∃ c, w.tracker.compactionOf store now j = .ok c ∧
        w'.host.history.rows = w.host.history.rows.insert c.key c.encode ∧
        w'.tracker.graph = w.tracker.graph.addCompaction c ∧
        (∀ n : String, w'.tracker.inFlight[n]? =
          if some n ∈ j.inputs.map SortedTable.nameAt? then none else w.tracker.inFlight[n]?) ∧
        w'.tracker.queue =
          if w.tracker.options.stripValues ∧ c.key ∉ w.tracker.queue then
            w.tracker.queue ++ [c.key]
          else w.tracker.queue) ∨
      (records w j = false ∧ w'.host.history = w.host.history ∧
        w'.tracker.graph = w.tracker.graph ∧ w'.tracker.queue = w.tracker.queue)) := by
  constructor
  · rintro e rfl
    exact (completeJob_error h).symm
  · rintro rfl
    rcases completeJob_ok h with ⟨hi, rfl⟩ | ⟨hi, ho, rfl⟩ | ⟨hi, ho, c, hc, ⟨ht, ha⟩ | ⟨ht, hr⟩⟩
    · refine .inr ⟨?_, rfl, rfl, rfl⟩
      rw [← Bool.not_eq_true, records_iff, hi]
      exact fun hr => nomatch hr.1
    · refine .inr ⟨?_, rfl, rfl, rfl⟩
      rw [← Bool.not_eq_true, records_iff]
      exact fun hr => hr.2.1 ho
    · refine .inr ⟨?_, ha.history, by rw [ha.tracker], by rw [ha.tracker]⟩
      rw [← Bool.not_eq_true, records_iff]
      exact fun hr => ht hr.2.2
    · refine .inl ⟨records_iff.mpr ⟨hi, ho, ht⟩, c, hc, hr.rows, ?_, fun n => ?_, ?_⟩
      · rw [hr.tracker, graph_recorded]
      · rw [hr.tracker, inFlight_recorded]
        simp only [mem_inputNames hw.namesFlight hc]
      · rw [hr.tracker, queue_recorded]

end Lineage.Tracker

/-! ## A job that is recorded, and one that is refused -/

namespace Lineage.Sample

open Tracker (beginJob completeJob InUse)

/-- A job was told to begin. -/
def announced : World := ((beginJob (store 5) (job ["a"] ["b"])).run.run fresh).2

/-- No row can be put. -/
def barred (w : World) : World :=
  { w with host := { w.host with
    outage := .standing fun op => if op = .put then some ⟨.other, none⟩ else none } }

theorem history_barred (w : World) : (barred w).host.history = w.host.history := rfl

theorem tracker_barred (w : World) : (barred w).tracker = w.tracker := rfl

theorem inUse_announced : InUse announced := by
  have hopened : InUse ⟨fresh.host, { dir := tracker.dir, options := tracker.options }⟩ := .opened
  have hattached : InUse fresh := .change hopened rfl
  have hrun := runs_of_fst (a := beginJob (store 5) (job ["a"] ["b"])) (s := fresh) rfl
  exact .begin hattached hrun

theorem completeJob_announced :
    announced.tracker.inFlight["a"]? = some { name := "a" } ∧
    (∃ w', Runs (completeJob (store 5) 1 (job ["a"] ["b"])) announced (.ok ()) w' ∧
      ∃ c, announced.tracker.compactionOf (store 5) 1 (job ["a"] ["b"]) = .ok c ∧
        w'.host.history.rows = announced.host.history.rows.insert c.key c.encode ∧
        w'.tracker.graph = announced.tracker.graph.addCompaction c ∧
        w'.tracker.inFlight["a"]? = none ∧ w'.tracker.queue = [c.key]) ∧
    ∃ w', Runs (completeJob (store 5) 1 (job ["a"] ["b"])) (barred announced)
        (.error (.table (.io ⟨.other, none⟩))) w' ∧
      w'.host.history = announced.host.history ∧ w'.tracker = announced.tracker := by
  obtain ⟨hflight, hqueue, hstrip, hinput, hrecords, hok, herror⟩ :
      announced.tracker.inFlight["a"]? = some { name := "a" } ∧ announced.tracker.queue = [] ∧
      announced.tracker.options.stripValues = true ∧
      some "a" ∈ (job ["a"] ["b"]).inputs.map SortedTable.nameAt? ∧
      Tracker.records announced (job ["a"] ["b"]) = true ∧
      ((completeJob (store 5) 1 (job ["a"] ["b"])).run.run announced).1 = .ok () ∧
      ((completeJob (store 5) 1 (job ["a"] ["b"])).run.run (barred announced)).1 =
        .error (.table (.io ⟨.other, none⟩)) := by
    decide +kernel
  refine ⟨hflight, ⟨_, runs_of_fst hok, ?_⟩, _, runs_of_fst herror, ?_⟩
  · obtain ⟨-, c, hc, hrows, hgraph, hgone, hkey⟩ | ⟨hnot, -⟩ :=
      (Tracker.completeJob_atomic inUse_announced (runs_of_fst hok)).2 rfl
    · refine ⟨c, hc, hrows, hgraph, (hgone "a").trans (if_pos hinput), ?_⟩
      rw [hkey, hqueue, hstrip]
      exact if_pos ⟨rfl, List.not_mem_nil⟩
    · cases hrecords.symm.trans hnot
  · have hrefused : InUse (barred announced) :=
      .change inUse_announced (congrArg Tracker.inFlight (tracker_barred announced))
    rw [← history_barred announced, ← tracker_barred announced]
    exact (Tracker.completeJob_atomic hrefused (runs_of_fst herror)).1 _ rfl

end Lineage.Sample
