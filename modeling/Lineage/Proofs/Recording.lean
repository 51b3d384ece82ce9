import Lineage.Proofs.Graph.Adding
import Lineage.Proofs.Tables
import Lineage.Tracker.Recording

/-!
# What recording does

A job that is over is recorded, if at all, as one compaction (`compactionOf`), which becomes a row
of the history and edges of the graph (`completeJob_ok`); if that fails, tracker and history stay as
they were (`completeJob_error`). What is told of a job that begins is remembered under the names of
its inputs and changes neither graph nor history.
-/

namespace Lineage.Tracker

open World (onDisk onHost update)

/-! ## Names -/

theorem nameAt_eq_ok {p : Path} {n : String} :
    nameAt p = .ok n ↔ SortedTable.nameAt? p = some n := by
  rw [nameAt]
  cases SortedTable.nameAt? p <;> simp

theorem name_infoOf (live : Std.ExtTreeMap String LiveFile) (n : String) :
    (infoOf live n).name = n := by
  rw [infoOf]
  cases live[n]? <;> rfl

theorem map_name_of_mapM {live : Std.ExtTreeMap String LiveFile} {files : List Path}
    {infos : List FileInfo}
    (h : files.mapM (fun p => (nameAt p).map (infoOf live)) = .ok infos) :
    files.map SortedTable.nameAt? = infos.map fun i => some i.name := by
  induction files generalizing infos with
  | nil =>
    cases h
    rfl
  | cons p rest ih =>
    rw [List.mapM_cons] at h
    cases hp : nameAt p with
    | error e =>
      rw [hp] at h
      cases h
    | ok n =>
      rw [hp] at h
      cases hr : rest.mapM fun p => (nameAt p).map (infoOf live) with
      | error e =>
        rw [hr] at h
        cases h
      | ok more =>
        rw [hr] at h
        cases h
        rw [List.map_cons, List.map_cons, ih hr, nameAt_eq_ok.mp hp, name_infoOf]

/-- Files are known by the names of their tables. -/
theorem map_name_of_infosOf {live : LiveFiles} {files : List Path} {infos : List FileInfo}
    (h : infosOf live files = .ok infos) :
    files.map SortedTable.nameAt? = infos.map fun i => some i.name := by
  cases live with
  | error e => cases h
  | ok live => exact map_name_of_mapM h

/-- What is remembered of files is kept under their names. -/
def NamesFlight (t : Tracker) : Prop :=
  ∀ (n : String) (i : FileInfo), t.inFlight[n]? = some i → i.name = n

variable {t : Tracker}

theorem NamesFlight.remembered (h : t.NamesFlight) (i : FileInfo) :
    (t.remembered i).name = i.name := by
  rw [Tracker.remembered, Std.ExtTreeMap.getD_eq_getD_getElem?]
  cases hi : t.inFlight[i.name]? with
  | none => rfl
  | some j => exact h _ _ hi

theorem NamesFlight.remember (h : t.NamesFlight) (infos : List FileInfo) :
    (t.remember infos).NamesFlight := by
  have insertAll (infos : List FileInfo) (m : Std.ExtTreeMap String FileInfo)
      (hm : ∀ (n : String) (i : FileInfo), m[n]? = some i → i.name = n) :
      ∀ (n : String) (i : FileInfo),
      (infos.foldl (fun m i => m.insert i.name i) m)[n]? = some i → i.name = n := by
    induction infos generalizing m with
    | nil => exact hm
    | cons j rest ih =>
      refine ih _ fun n i hi => ?_
      rw [Std.ExtTreeMap.getElem?_insert] at hi
      split at hi
      · cases hi
        exact Std.compare_eq_iff_eq.mp ‹_›
      · exact hm n i hi
  exact insertAll infos t.inFlight h

theorem getElem?_foldl_erase {α β : Type} [Ord α] [Std.TransOrd α] [Std.LawfulEqOrd α] [DecidableEq α]
    {keys : List α} {m : Std.ExtTreeMap α β} {k : α} :
    (keys.foldl Std.ExtTreeMap.erase m)[k]? = if k ∈ keys then none else m[k]? := by
  induction keys generalizing m with
  | nil => rfl
  | cons key rest ih =>
    rw [List.foldl_cons, ih, Std.ExtTreeMap.getElem?_erase]
    simp only [List.mem_cons, Std.compare_eq_iff_eq]
    grind

theorem getElem?_forget {names : List String} {n : String} :
    (t.forget names).inFlight[n]? = if n ∈ names then none else t.inFlight[n]? :=
  getElem?_foldl_erase

theorem NamesFlight.forget (h : t.NamesFlight) (names : List String) :
    (t.forget names).NamesFlight := by
  intro n i hi
  rw [getElem?_forget] at hi
  split at hi
  · cases hi
  · exact h n i hi

/-! ## The compaction of a job -/

/-- What a job that is over is recorded as. -/
def compactionOf (t : Tracker) (store : Store) (now : UInt64) (j : Job) :
    Except Error Compaction := do
  let inputs ← infosOf store.live j.inputs
  let outputs ← infosOf store.live j.outputs
  return ⟨store.sequence, now, inputs.map t.remembered, outputs, j.reason⟩

variable {store : Store} {now : UInt64} {j : Job} {c : Compaction}

theorem compactionOf_eq_ok : t.compactionOf store now j = .ok c ↔ ∃ inputs outputs,
    infosOf store.live j.inputs = .ok inputs ∧ infosOf store.live j.outputs = .ok outputs ∧
      c = ⟨store.sequence, now, inputs.map t.remembered, outputs, j.reason⟩ := by
  rw [compactionOf]
  cases infosOf store.live j.inputs with
  | error e => simp [bind, Except.bind]
  | ok inputs =>
    cases infosOf store.live j.outputs with
    | error e => simp [bind, Except.bind]
    | ok outputs => simp [bind, Except.bind, pure, Except.pure, eq_comm]

/-- A recorded compaction names the job's files. -/
theorem inputNames_of_compactionOf {names : List String} (hc : t.compactionOf store now j = .ok c)
    (ht : t.NamesFlight) (hj : j.inputs.map SortedTable.nameAt? = names.map some) :
    c.inputNames = names := by
  obtain ⟨inputs, outputs, hin, -, rfl⟩ := compactionOf_eq_ok.mp hc
  have hnames := (map_name_of_infosOf hin).symm.trans hj
  have hkept : (inputs.map t.remembered).map FileInfo.name = inputs.map FileInfo.name := by
    rw [List.map_map]
    exact List.map_congr_left fun i _ => ht.remembered i
  rw [Compaction.inputNames, hkept]
  refine (List.map_inj_right fun _ _ => Option.some.inj).mp ?_
  rw [List.map_map]
  exact hnames

theorem outputNames_of_compactionOf {names : List String}
    (hc : t.compactionOf store now j = .ok c)
    (hj : j.outputs.map SortedTable.nameAt? = names.map some) : c.outputNames = names := by
  obtain ⟨inputs, outputs, -, hout, rfl⟩ := compactionOf_eq_ok.mp hc
  have hnames := (map_name_of_infosOf hout).symm.trans hj
  rw [Compaction.outputNames]
  refine (List.map_inj_right fun _ _ => Option.some.inj).mp ?_
  rw [List.map_map]
  exact hnames

theorem sequence_of_compactionOf (hc : t.compactionOf store now j = .ok c) :
    c.sequence = store.sequence := by
  obtain ⟨_, _, -, -, rfl⟩ := compactionOf_eq_ok.mp hc
  rfl

/-- Paths of different tables are different paths. -/
theorem samePaths_eq_false {ps qs : List Path} {p : Path} {n : String} (hp : p ∈ ps)
    (hn : SortedTable.nameAt? p = some n) (hq : ∀ q ∈ qs, SortedTable.nameAt? q ≠ some n) :
    samePaths ps qs = false := by
  rw [Bool.eq_false_iff]
  intro hs
  simp only [samePaths, Bool.and_eq_true, List.all_eq_true, decide_eq_true_eq, List.mem_map] at hs
  obtain ⟨q, hqs, hpq⟩ := hs.1 _ ⟨p, hp, rfl⟩
  refine hq q hqs ?_
  rw [← hn, SortedTable.nameAt?, SortedTable.nameAt?, Path.fileName?, Path.fileName?, hpq]

/-- A job of a tracked family that replaces files by other ones leaves a trace. -/
theorem ignores_eq_false {inputs outputs : List String} (ht : t.options.tracks j.family = true)
    (hin : j.inputs.map SortedTable.nameAt? = inputs.map some)
    (hout : j.outputs.map SortedTable.nameAt? = outputs.map some) (hne : inputs ≠ [])
    (hdisj : ∀ n ∈ inputs, n ∉ outputs) : t.ignores j = false := by
  obtain ⟨n, rest, rfl⟩ := List.exists_cons_of_ne_nil hne
  obtain ⟨p, ps, hps, hp, -⟩ := List.map_eq_cons_iff.mp hin
  have hsame : samePaths j.inputs j.outputs = false := by
    refine samePaths_eq_false (hps ▸ List.mem_cons_self) hp fun q hq hqn => ?_
    have hmem : some n ∈ outputs.map some := hout ▸ hqn ▸ List.mem_map_of_mem hq
    exact hdisj n List.mem_cons_self (by simpa using hmem)
  rw [ignores, ht, hsame, hps]
  rfl

/-! ## Whether events are recorded -/

/-- Compactions are recorded: a tracker is open and has tables, and there are snapshots. -/
structure Tracking (w : World) : Prop where
  opened : w.tracker.closed = false
  attached : w.tracker.attached = true
  snapshots : w.host.snapshots.isEmpty = false

/-- Nothing but the plan of failures of the tables went on. -/
structure Asked (w w' : World) : Prop where
  tracker : w'.tracker = w.tracker
  history : w'.host.history = w.host.history
  snapshots : w'.host.snapshots = w.host.snapshots
  disk : w'.host.disk = w.host.disk

variable {w w' : World}

theorem Asked.later : Asked w w.later := ⟨rfl, rfl, rfl, rfl⟩

/-- What only reads a table leaves all but the plan of failures alone. -/
theorem asked_of_read {ε α : Type} {wrap : TableError → ε} (op : TableOperation) (f : Host → α)
    {r : Except ε α} (h : Runs (onHost wrap (do Host.consult op; return f (← get))) w r w') :
    Asked w w' := by
  rw [((World.runs_read op f).mp h).1]
  exact .later

theorem runs_recording {r : Except Error Bool} (h : Runs recording w r w') :
    Asked w w' ∧ ∀ b, r = .ok b → (b = true ↔ Tracking w) := by
  rw [recording, runs_get_bind] at h
  dsimp only at h
  split at h
  · rename_i hc
    obtain ⟨rfl, rfl⟩ := runs_pure.mp h
    refine ⟨⟨rfl, rfl, rfl, rfl⟩, ?_⟩
    intro b hb
    cases hb
    exact ⟨fun hf => absurd hf Bool.false_ne_true,
      fun ht => by simp [ht.opened, ht.attached] at hc⟩
  · rename_i hc
    simp only [Bool.or_eq_true, Bool.not_eq_true', not_or, Bool.not_eq_true,
      Bool.not_eq_false] at hc
    simp only [runs_bind, World.runs_onHost, Host.runs_noSnapshots, runs_pure] at h
    rcases h with ⟨b, _, ⟨r₀, _, ⟨rfl, hr⟩, hb, rfl⟩, rfl, rfl⟩ | ⟨e, ⟨_, _, ⟨rfl, -⟩, -, rfl⟩, rfl⟩
    · refine ⟨⟨rfl, rfl, rfl, rfl⟩, ?_⟩
      intro b hb'
      cases hb'
      cases ho : w.host.outage 0 .isEmpty with
      | some f =>
        rw [hr, ho] at hb
        cases hb
      | none =>
        rw [hr, ho] at hb
        cases hb
        rw [Bool.not_eq_true']
        exact ⟨fun hs => ⟨hc.1, hc.2, hs⟩, fun ht => ht.snapshots⟩
    · refine ⟨⟨rfl, rfl, rfl, rfl⟩, fun b hb => ?_⟩
      cases hb

/-! ## Recorded compactions -/

@[simp] theorem graph_forget (names : List String) : (t.forget names).graph = t.graph := rfl

@[simp] theorem closed_forget (names : List String) : (t.forget names).closed = t.closed := rfl

@[simp] theorem attached_forget (names : List String) : (t.forget names).attached = t.attached :=
  rfl

@[simp] theorem options_forget (names : List String) : (t.forget names).options = t.options := rfl

@[simp] theorem dir_forget (names : List String) : (t.forget names).dir = t.dir := rfl

@[simp] theorem graph_enqueue (key : Bytes) : (t.enqueue key).graph = t.graph := by
  rw [enqueue]
  split <;> rfl

@[simp] theorem closed_enqueue (key : Bytes) : (t.enqueue key).closed = t.closed := by
  rw [enqueue]
  split <;> rfl

@[simp] theorem attached_enqueue (key : Bytes) : (t.enqueue key).attached = t.attached := by
  rw [enqueue]
  split <;> rfl

@[simp] theorem options_enqueue (key : Bytes) : (t.enqueue key).options = t.options := by
  rw [enqueue]
  split <;> rfl

@[simp] theorem dir_enqueue (key : Bytes) : (t.enqueue key).dir = t.dir := by
  rw [enqueue]
  split <;> rfl

@[simp] theorem inFlight_enqueue (key : Bytes) : (t.enqueue key).inFlight = t.inFlight := by
  rw [enqueue]
  split <;> rfl

theorem recorded_eq (key : Bytes) : t.recorded c key =
    if t.options.stripValues then
      ({ t with graph := t.graph.addCompaction c }.forget c.inputNames).enqueue key
    else { t with graph := t.graph.addCompaction c }.forget c.inputNames := rfl

@[simp] theorem graph_recorded (key : Bytes) : (t.recorded c key).graph = t.graph.addCompaction c := by
  rw [recorded_eq]
  split <;> simp

@[simp] theorem closed_recorded (key : Bytes) : (t.recorded c key).closed = t.closed := by
  rw [recorded_eq]
  split <;> simp

@[simp] theorem attached_recorded (key : Bytes) : (t.recorded c key).attached = t.attached := by
  rw [recorded_eq]
  split <;> simp

@[simp] theorem options_recorded (key : Bytes) : (t.recorded c key).options = t.options := by
  rw [recorded_eq]
  split <;> simp

@[simp] theorem dir_recorded (key : Bytes) : (t.recorded c key).dir = t.dir := by
  rw [recorded_eq]
  split <;> simp

theorem NamesFlight.recorded (h : t.NamesFlight) (key : Bytes) : (t.recorded c key).NamesFlight := by
  have hforget : ({ t with graph := t.graph.addCompaction c }.forget c.inputNames).NamesFlight :=
    NamesFlight.forget h c.inputNames
  rw [recorded_eq]
  split
  · rwa [NamesFlight, inFlight_enqueue]
  · exact hforget

/-! ## Completed jobs -/

/-- A compaction became part of the graph and a row of the history. -/
structure Recorded (c : Compaction) (w w' : World) : Prop where
  tracker : w'.tracker = w.tracker.recorded c c.key
  rows : w'.host.history.rows = w.host.history.rows.insert c.key c.encode
  disk : Disk.Within (fun _ => False) w.disk w'.disk
  snapshots : w'.host.snapshots = w.host.snapshots

theorem completeJob_ok {u : Unit} (h : Runs (completeJob store now j) w (.ok u) w') :
    (w.tracker.ignores j = true ∧ w' = w) ∨
    (w.tracker.ignores j = false ∧ j.outputs = [] ∧
      w' = { w with tracker := w.tracker.forget (j.inputs.filterMap SortedTable.nameAt?) }) ∨
    (w.tracker.ignores j = false ∧ j.outputs ≠ [] ∧
      ∃ c, w.tracker.compactionOf store now j = .ok c ∧
        ((¬ Tracking w ∧ Asked w w') ∨ (Tracking w ∧ Recorded c w w'))) := by
  rw [completeJob, runs_get_bind] at h
  split at h
  · rename_i hi
    exact .inl ⟨hi, (runs_pure.mp h).2⟩
  rename_i hi
  simp only [Bool.not_eq_true] at hi
  split at h
  · rename_i ho
    simp only [runs_bind_ok, World.runs_update, runs_pure] at h
    obtain ⟨_, _, ⟨-, rfl⟩, -, rfl⟩ := h
    exact .inr (.inl ⟨hi, List.isEmpty_iff.mp ho, rfl⟩)
  · rename_i ho
    simp only [runs_bind_ok, runs_ofExcept] at h
    obtain ⟨inputs, _, ⟨hin, rfl⟩, outputs, _, ⟨hout, rfl⟩, w₀, w₁, hget, b, w₂, hrec, h⟩ := h
    obtain ⟨⟨⟩, rfl⟩ := runs_get.mp hget
    obtain ⟨hasked, hb⟩ := runs_recording hrec
    replace hb := hb _ rfl
    refine .inr (.inr ⟨hi, fun h0 => ho (List.isEmpty_iff.mpr h0), _,
      compactionOf_eq_ok.mpr ⟨inputs, outputs, hin.symm, hout.symm, rfl⟩, ?_⟩)
    cases b with
    | false =>
      obtain ⟨-, rfl⟩ := runs_pure.mp h
      exact .inl ⟨fun ht => Bool.noConfusion (hb.mpr ht), hasked⟩
    | true =>
      simp only [if_true, runs_bind_ok, World.runs_onHost_ok, World.runs_update] at h
      obtain ⟨_, _, ⟨host, hput, rfl⟩, -, rfl⟩ := h
      obtain ⟨hrows, hsnap⟩ := Host.putRow_ok hput
      refine .inr ⟨hb.mp rfl, ⟨?_, ?_, ?_, ?_⟩⟩
      · rw [← hasked.tracker]
      · rw [hrows, hasked.history]
      · rw [World.disk, ← hasked.disk]
        exact Host.within_putRow _ _ _ hput
      · rw [hsnap, hasked.snapshots]

/-- A job that fails to be recorded leaves the tracker and the history as they were. -/
theorem completeJob_error {e : Error} (h : Runs (completeJob store now j) w (.error e) w') :
    w'.tracker = w.tracker ∧ w'.host.history = w.host.history := by
  rw [completeJob, runs_get_bind] at h
  split at h
  · exact absurd (runs_pure.mp h).1 nofun
  split at h
  · simp only [runs_bind, World.runs_update, runs_pure] at h
    rcases h with ⟨_, _, _, h, _⟩ | ⟨_, ⟨h, _⟩, _⟩ <;> cases h
  rw [runs_bind, or_comm] at h
  rcases h with ⟨_, hin, -⟩ | ⟨inputs, w₁, hin, h⟩
  · rw [(runs_ofExcept.mp hin).2]
    exact ⟨rfl, rfl⟩
  obtain ⟨-, rfl⟩ := runs_ofExcept.mp hin
  rw [runs_bind, or_comm] at h
  rcases h with ⟨_, hout, -⟩ | ⟨outputs, w₁, hout, h⟩
  · rw [(runs_ofExcept.mp hout).2]
    exact ⟨rfl, rfl⟩
  obtain ⟨-, rfl⟩ := runs_ofExcept.mp hout
  rw [runs_get_bind] at h
  rw [runs_bind, or_comm] at h
  rcases h with ⟨_, hrec, -⟩ | ⟨b, w₂, hrec, h⟩
  · exact ⟨(runs_recording hrec).1.tracker, (runs_recording hrec).1.history⟩
  split at h
  · rw [runs_bind, or_comm] at h
    rcases h with ⟨_, hput, -⟩ | ⟨_, w₃, -, h⟩
    · obtain ⟨r₀, host, hput, hr, rfl⟩ := World.runs_onHost.mp hput
      cases r₀ with
      | ok u => cases hr
      | error e =>
        exact ⟨(runs_recording hrec).1.tracker,
          (Host.changeHistory_error hput).1.trans (runs_recording hrec).1.history⟩
    · exact absurd (World.runs_update.mp h).1 nofun
  · exact absurd (runs_pure.mp h).1 nofun

/-! ## Jobs that begin -/

/-- A backup changes nothing but the disk. -/
theorem moves_backUp {p : Path} :
    Moves (Fixes World.rest) (backUp p) := by
  refine moves_bind moves_ofExcept fun n => moves_tryCatch ?_ fun e => ?_
  · exact moves_bind moves_get fun _ => World.rest_onDisk
  · split
    · split
      · exact moves_pure
      · exact moves_throw
    · exact moves_throw

theorem moves_backUpAll {ps : List Path} :
    Moves (Fixes World.rest) (backUpAll ps) := by
  induction ps with
  | nil => exact moves_pure
  | cons p rest ih => exact moves_bind moves_backUp fun _ => ih

/-- A job that begins changes no more of the tracker than what it remembers of files. -/
theorem runs_beginJob {r : Except Error Unit} (h : Runs (beginJob store j) w r w') :
    (w'.tracker = w.tracker ∨ ∃ infos, w'.tracker = w.tracker.remember infos) ∧
      w'.host.history = w.host.history ∧ w'.host.snapshots = w.host.snapshots := by
  rw [beginJob, runs_get_bind] at h
  split at h
  · rw [(runs_pure.mp h).2]
    exact ⟨.inl rfl, rfl, rfl⟩
  rw [runs_bind, or_comm] at h
  rcases h with ⟨_, hrec, -⟩ | ⟨b, w₁, hrec, h⟩
  · have hasked := (runs_recording hrec).1
    exact ⟨.inl hasked.tracker, hasked.history, hasked.snapshots⟩
  have hasked := (runs_recording hrec).1
  split at h
  · rw [runs_bind, or_comm] at h
    rcases h with ⟨_, hin, -⟩ | ⟨infos, w₂, hin, h⟩
    · rw [(runs_ofExcept.mp hin).2]
      exact ⟨.inl hasked.tracker, hasked.history, hasked.snapshots⟩
    obtain ⟨-, rfl⟩ := runs_ofExcept.mp hin
    simp only [runs_bind, World.runs_update] at h
    obtain ⟨_, w₃, ⟨-, rfl⟩, h⟩ | ⟨_, ⟨h, -⟩, -⟩ := h
    · have hkeeps := moves_backUpAll _ _ _ h
      simp only [Fixes, World.rest, Prod.mk.injEq] at hkeeps
      refine ⟨.inr ⟨infos, ?_⟩, hkeeps.2.1.trans hasked.history,
        hkeeps.2.2.trans hasked.snapshots⟩
      rw [hkeeps.1, hasked.tracker]
    · cases h
  · rw [(runs_pure.mp h).2]
    exact ⟨.inl hasked.tracker, hasked.history, hasked.snapshots⟩

/-! ## Trackers that are ready -/

/-- A tracker takes events. -/
structure Ready (t : Tracker) : Prop where
  opened : t.closed = false
  attached : t.attached = true
  flight : t.NamesFlight

theorem Ready.tracking (h : w.tracker.Ready) (hs : w.host.snapshots.isEmpty = false) :
    Tracking w :=
  ⟨h.opened, h.attached, hs⟩

theorem Ready.begin {r : Except Error Unit} (h : w.tracker.Ready)
    (hr : Runs (beginJob store j) w r w') : w'.tracker.Ready ∧
      w'.tracker.graph = w.tracker.graph ∧ w'.tracker.options = w.tracker.options := by
  rcases (runs_beginJob hr).1 with ht | ⟨infos, ht⟩
  · rw [ht]
    exact ⟨h, rfl, rfl⟩
  · rw [ht]
    exact ⟨⟨h.opened, h.attached, h.flight.remember infos⟩, rfl, rfl⟩

/-- What a job of a tracked family leaves behind: a compaction in the graph, if it has outputs and
there are snapshots. -/
theorem Ready.complete {inputs outputs : List String} {u : Unit} (h : w.tracker.Ready)
    (ht : w.tracker.options.tracks j.family = true)
    (hin : j.inputs.map SortedTable.nameAt? = inputs.map some)
    (hout : j.outputs.map SortedTable.nameAt? = outputs.map some) (hne : inputs ≠ [])
    (hdisj : ∀ n ∈ inputs, n ∉ outputs) (hr : Runs (completeJob store now j) w (.ok u) w') :
    w'.tracker.Ready ∧ w'.tracker.options = w.tracker.options ∧
      w'.host.snapshots = w.host.snapshots ∧
      ((outputs = [] ∨ w.host.snapshots.isEmpty = true) ∧ w'.tracker.graph = w.tracker.graph ∨
        outputs ≠ [] ∧ w.host.snapshots.isEmpty = false ∧ ∃ c : Compaction,
          c.inputNames = inputs ∧ c.outputNames = outputs ∧ c.sequence = store.sequence ∧
          w'.tracker.graph = w.tracker.graph.addCompaction c) := by
  have hempty : j.outputs = [] ↔ outputs = [] := by
    rw [← List.map_eq_nil_iff, hout, List.map_eq_nil_iff]
  rcases completeJob_ok hr with ⟨hi, -⟩ | ⟨-, ho, rfl⟩ | ⟨-, ho, c, hc, ⟨hnot, ha⟩ | ⟨htr, hrec⟩⟩
  · rw [ignores_eq_false ht hin hout hne hdisj] at hi
    contradiction
  · exact ⟨⟨h.opened, h.attached, h.flight.forget _⟩, rfl, rfl, .inl ⟨.inl (hempty.mp ho), rfl⟩⟩
  · refine ⟨ha.tracker ▸ h, by rw [ha.tracker], ha.snapshots, .inl ⟨.inr ?_, by rw [ha.tracker]⟩⟩
    rw [← Bool.not_eq_false]
    exact fun hs => hnot (h.tracking hs)
  · rw [hrec.tracker]
    refine ⟨⟨?_, ?_, h.flight.recorded _⟩, options_recorded _, hrec.snapshots,
      .inr ⟨fun h0 => ho (hempty.mpr h0), htr.snapshots, c, inputNames_of_compactionOf hc h.flight hin,
        outputNames_of_compactionOf hc hout, sequence_of_compactionOf hc, graph_recorded _⟩⟩
    · rw [closed_recorded, h.opened]
    · rw [attached_recorded, h.attached]

end Lineage.Tracker

/-! ## Sample jobs -/

namespace Lineage.Sample

/-- A tracker that has tables and no history. -/
def tracker : Tracker where
  dir := ⟨"/tracker"⟩
  options := {}
  attached := true

/-- The path of a table. -/
def path (n : String) : Path := SortedTable.pathIn ⟨"/db"⟩ n

/-- The store at a sequence number. It tells nothing of its files. -/
def store (sequence : UInt64) : Store := { sequence }

def job (inputs outputs : List String) : Job where
  family := "keyTable"
  inputs := inputs.map path
  outputs := outputs.map path

end Lineage.Sample
