import Lineage.Proofs.Backups
import Lineage.Proofs.Graph.Expiring
import Lineage.Proofs.History.Compaction
import Lineage.Proofs.Rows
import Lineage.Proofs.Stripping.Steps

/-!
# What upkeep does

Expiry takes files out of the graph together with their backups and rows (`runs_expireHistory`).
Dropping the backups of outputs leaves none of them (`runs_dropOutputBackups`). Stripping marks the
files in rows and leaves every backup where it is (`runs_stripBackups`).
-/

namespace Lineage.Tracker

open World (onDisk onHost update)

variable {w w' : World} {n x : String} {names : Names}

/-! ## Expiry -/

theorem expiredRows_eq_ok {now limit : UInt64} {rows : List (Bytes × Bytes)}
    {expired : List (Bytes × Compaction)} (h : expiredRows now limit rows = .ok expired) :
    ∀ e ∈ expired, ∃ value, (e.1, value) ∈ rows ∧ History.readRow value = .ok e.2 := by
  induction rows generalizing expired with
  | nil =>
    cases h
    exact fun e he => absurd he List.not_mem_nil
  | cons row rest ih =>
    rw [expiredRows] at h
    obtain ⟨c, hc, h⟩ := except_bind_eq_ok.mp h
    split at h
    · cases h
      exact fun e he => absurd he List.not_mem_nil
    · obtain ⟨more, hmore, h⟩ := except_bind_eq_ok.mp h
      cases h
      intro e he
      rcases List.mem_cons.mp he with rfl | he
      · exact ⟨row.2, List.mem_cons_self, except_mapError_eq_ok.mp hc⟩
      · obtain ⟨value, hvalue, he⟩ := ih hmore e he
        exact ⟨value, List.mem_cons_of_mem _ hvalue, he⟩

/-- Rows went, and nothing else but bytes of files changed. -/
structure Shortened (w w' : World) : Prop where
  tracker : w'.tracker = w.tracker
  snapshots : w'.host.snapshots = w.host.snapshots
  disk : Disk.Within (fun _ => False) w.disk w'.disk
  rows : ∀ k v : Bytes, w'.host.history.rows[k]? = some v → w.host.history.rows[k]? = some v

instance : Frame Shortened where
  refl _ := ⟨rfl, rfl, Frame.refl _, fun _ _ => id⟩
  trans h h' := ⟨h'.tracker.trans h.tracker, h'.snapshots.trans h.snapshots,
    Frame.trans h.disk h'.disk, fun k v hk => h.rows k v (h'.rows k v hk)⟩

theorem moves_deleteRow {key : Bytes} :
    Moves Shortened (onHost UpkeepError.table (Host.deleteRow key)) := by
  intro w r w' h
  obtain ⟨r₀, host, hhost, -, rfl⟩ := World.runs_onHost.mp h
  have hdisk : Disk.Within (fun _ => False) w.disk host.disk :=
    Host.within_deleteRow _ _ _ hhost
  cases r₀ with
  | ok u =>
    obtain ⟨hrows, hsnap⟩ := Host.deleteRow_ok hhost
    refine ⟨rfl, hsnap, hdisk, fun k v hk => ?_⟩
    dsimp only at hk
    rw [hrows, Std.ExtTreeMap.getElem?_erase] at hk
    split at hk
    · cases hk
    · exact hk
  | error e =>
    obtain ⟨hhistory, hsnap⟩ := Host.changeHistory_error hhost
    exact ⟨rfl, hsnap, hdisk, fun k v hk => hhistory ▸ hk⟩

theorem moves_deleteRows {keys : List Bytes} : Moves Shortened (deleteRows keys) := by
  induction keys with
  | nil => exact moves_pure
  | cons key rest ih => exact moves_bind moves_deleteRow fun _ => ih

/-- Some files are out of the graph, with the edges that touched them and their backups, and some
rows may be gone. -/
structure Expires (names : Names) (w w' : World) : Prop where
  tracker : w'.tracker = { w.tracker with graph := w'.tracker.graph }
  edges : ∀ n x, x ∈ w'.tracker.graph.olderThan n ↔
    x ∈ w.tracker.graph.olderThan n ∧ n ∉ names ∧ x ∉ names
  disk : Disk.Within (w.tracker.backupSpots names.toList) w.disk w'.disk
  rows : ∀ k v : Bytes, w'.host.history.rows[k]? = some v → w.host.history.rows[k]? = some v
  snapshots : w'.host.snapshots = w.host.snapshots

theorem Shortened.of_asked (h : Asked w w') : Shortened w w' where
  tracker := h.tracker
  snapshots := h.snapshots
  disk := (show w'.disk = w.disk from h.disk) ▸ Frame.refl _
  rows _ _ hk := h.history ▸ hk

theorem Shortened.expires (h : Shortened w w') : Expires ∅ w w' where
  tracker := by rw [h.tracker]
  edges n x := by
    rw [h.tracker]
    exact (and_iff_left ⟨Std.ExtTreeSet.not_mem_empty, Std.ExtTreeSet.not_mem_empty⟩).symm
  disk := h.disk.mono fun _ => False.elim
  rows := h.rows
  snapshots := h.snapshots

/-- An edge or a row tells that a file was compacted. -/
def Consumed (w : World) (n : String) : Prop :=
  (∃ m, n ∈ w.tracker.graph.olderThan m) ∨
    ∃ (key value : Bytes) (c : Compaction), w.host.history.rows[key]? = some value ∧
      History.readRow value = .ok c ∧ n ∈ c.inputNames

/-- Rows can be scanned for what expired. -/
structure Scans (w : World) : Prop where
  active : w.tracker.active = true
  attached : w.tracker.attached = true
  scanned : w.host.outage 0 .scan = none

/-- What a run of expiry does: nothing, or to ask in vain, or it takes what expired out of the graph,
then removes backups, and then deletes rows. -/
inductive ExpirySteps (now : UInt64) (w : World) : Except UpkeepError Expired → World → Prop
  | idle (off : w.tracker.active = false) : ExpirySteps now w (.ok {}) w
  | unattached (on : w.tracker.active = true) (no : w.tracker.attached = false) :
      ExpirySteps now w (.error .notAttached) w
  | refused {f : IoError} (on : w.tracker.active = true) (cause : w.host.outage 0 .scan = some f) :
      ExpirySteps now w (.error (.table (.io f))) w.later
  | unread {e : UpkeepError} (scans : Scans w)
      (read : expiredRows now (ageLimit w.tracker.options) w.host.history.rows.toList = .error e) :
      ExpirySteps now w (.error e) w.later
  | nothing (scans : Scans w)
      (read : expiredRows now (ageLimit w.tracker.options) w.host.history.rows.toList = .ok []) :
      ExpirySteps now w (.ok {}) w.later
  | pruned {expired : List (Bytes × Compaction)} {names : Names} {k : Nat} {w₁ w₂ w' : World}
      {r : Except UpkeepError Unit} (scans : Scans w)
      (read : expiredRows now (ageLimit w.tracker.options) w.host.history.rows.toList = .ok expired)
      (some : expired ≠ [])
      (gone : names = w.tracker.graph.expiring (expired.flatMap fun row => row.2.inputNames))
      (graph : w₁ = { w.later with
        tracker := { w.tracker with graph := w.tracker.graph.without names } })
      (removed : Runs (removeBackups names.toList) w₁ (.ok k) w₂)
      (deleted : Runs (deleteRows (expired.map Prod.fst)) w₂ r w') :
      ExpirySteps now w (r.map fun _ => { compactions := expired.length, names, backups := k }) w'

theorem expireHistory_steps {now : UInt64} {r : Except UpkeepError Expired}
    (h : Runs (expireHistory now) w r w') : ExpirySteps now w r w' := by
  rw [expireHistory, runs_get_bind] at h
  dsimp only at h
  split at h
  swap
  · rename_i hoff
    obtain ⟨rfl, rfl⟩ := runs_pure.mp h
    exact .idle (Bool.eq_false_iff.mpr hoff)
  rename_i hon
  split at h
  swap
  · rename_i hno
    obtain ⟨rfl, rfl⟩ := runs_throw_bind.mp h
    exact .unattached hon (Bool.eq_false_iff.mpr hno)
  rename_i hattached
  rcases runs_bind.mp h with ⟨rows, w₁, hscan, h₁⟩ | ⟨e, hscan, rfl⟩
  swap
  · obtain ⟨rfl, he⟩ := World.runs_scanRows.mp hscan
    split at he
    · cases he
    · rename_i f hf
      cases he
      exact .refused hon hf
  obtain ⟨hscanned, rfl, rfl⟩ := World.runs_scanRows_ok.mp hscan
  have hscans : Scans w := ⟨hon, hattached, hscanned⟩
  rcases runs_bind.mp h₁ with ⟨expired, w₂, hread, h₂⟩ | ⟨e, hread, rfl⟩
  swap
  · obtain ⟨he, rfl⟩ := runs_ofExcept.mp hread
    exact .unread hscans he.symm
  obtain ⟨hok, rfl⟩ := runs_ofExcept.mp hread
  split at h₂
  · rename_i hempty
    rw [List.isEmpty_iff.mp hempty] at hok
    obtain ⟨rfl, rfl⟩ := runs_pure.mp h₂
    exact .nothing hscans hok.symm
  rename_i hsome
  rw [World.runs_update_bind] at h₂
  rcases runs_bind.mp h₂ with ⟨k, w₃, hremove, h₃⟩ | ⟨e, hremove, rfl⟩
  swap
  · obtain ⟨k, hk⟩ := removeBackups_ok hremove
    cases hk
  have hpruned {r : Except UpkeepError Unit} {w' : World}
      (hdelete : Runs (deleteRows (expired.map Prod.fst)) w₃ r w') :=
    ExpirySteps.pruned hscans hok.symm (fun he => hsome (List.isEmpty_iff.mpr he)) rfl rfl hremove
      hdelete
  rcases runs_bind.mp h₃ with ⟨u, w₄, hdelete, h₄⟩ | ⟨e, hdelete, rfl⟩
  · obtain ⟨rfl, rfl⟩ := runs_pure.mp h₄
    exact hpruned hdelete
  · exact hpruned hdelete

/-- However expiry ends, only files that were compacted expired. -/
theorem runs_expireHistory {now : UInt64} {r : Except UpkeepError Expired}
    (h : Runs (expireHistory now) w r w') :
    ∃ names, Expires names w w' ∧ ∀ n ∈ names, Consumed w n := by
  have hnone (hasked : Asked w w') : ∃ names, Expires names w w' ∧ ∀ n ∈ names, Consumed w n :=
    ⟨∅, (Shortened.of_asked hasked).expires, fun n hn => absurd hn Std.ExtTreeSet.not_mem_empty⟩
  cases expireHistory_steps h with
  | idle => exact hnone ⟨rfl, rfl, rfl, rfl⟩
  | unattached => exact hnone ⟨rfl, rfl, rfl, rfl⟩
  | refused => exact hnone .later
  | unread => exact hnone .later
  | nothing => exact hnone .later
  | @pruned expired names k w₁ w₂ _ r _ read some gone graph removed deleted =>
    subst graph
    have hshort := moves_deleteRows _ _ _ deleted
    obtain ⟨hrest, hdisk⟩ := removeBackups_within removed
    have htracker := hshort.tracker.trans (congrArg Prod.fst hrest)
    have hhistory : w₂.host.history = w.host.history := congrArg (fun r => r.2.1) hrest
    have hsnap := hshort.snapshots.trans (congrArg (fun r => r.2.2) hrest)
    refine ⟨names, ⟨?_, fun n x => ?_, ?_, fun k v hk => ?_, hsnap⟩, fun n hn => ?_⟩
    · rw [htracker]
      rfl
    · rw [htracker]
      exact Graph.mem_olderThan_without
    · exact Frame.trans hdisk (hshort.disk.mono fun _ => False.elim)
    · have hrow := hshort.rows k v hk
      rwa [hhistory] at hrow
    · rw [gone] at hn
      rcases Graph.mem_or_of_mem_expiring hn with hstart | hedge
      · obtain ⟨row, hrow, hmem⟩ := List.mem_flatMap.mp hstart
        obtain ⟨value, hvalue, hread⟩ := expiredRows_eq_ok read row hrow
        rw [Std.ExtTreeMap.mem_toList_iff_getElem?_eq_some] at hvalue
        exact .inr ⟨row.1, value, row.2, hvalue, hread, hmem⟩
      · exact .inl hedge

/-- Rows are deleted from the first one on, and all of them if that does not fail. -/
theorem runs_deleteRows {keys : List Bytes} {r : Except UpkeepError Unit}
    (h : Runs (deleteRows keys) w r w') : OnlyRows w w' ∧ ∃ n ≤ keys.length,
      w'.host.history.rows = (keys.take n).foldl Std.ExtTreeMap.erase w.host.history.rows ∧
      (r = .ok () → n = keys.length) := by
  induction keys generalizing w with
  | nil =>
    rw [(runs_pure.mp h).2]
    exact ⟨Frame.refl _, 0, Nat.le_refl _, rfl, fun _ => rfl⟩
  | cons key rest ih =>
    rcases runs_bind.mp h with ⟨u, w₁, hdelete, hrest⟩ | ⟨e, hdelete, rfl⟩
    · obtain ⟨honly, ⟨-, hrows⟩ | ⟨⟨e, he⟩, -⟩⟩ := runs_deleteRow hdelete
      · obtain ⟨honly', n, hn, hrows', hok⟩ := ih hrest
        refine ⟨Frame.trans honly honly', n + 1, Nat.succ_le_succ hn, ?_, fun hr => ?_⟩
        · rw [hrows', hrows]
          rfl
        · rw [hok hr]
          rfl
      · cases he
    · obtain ⟨honly, ⟨he, -⟩ | ⟨-, hhistory⟩⟩ := runs_deleteRow hdelete
      · cases he
      · exact ⟨honly, 0, Nat.zero_le _, by rw [hhistory]; rfl, nofun⟩

/-- Expiry that goes through takes the same compactions out of graph and history, if any. -/
theorem expireHistory_ok {now : UInt64} {e : Expired} (h : Runs (expireHistory now) w (.ok e) w') :
    Asked w w' ∨ ∃ expired,
      expiredRows now (ageLimit w.tracker.options) w.host.history.rows.toList = .ok expired ∧
      w'.tracker.graph = w.tracker.graph.without
        (w.tracker.graph.expiring (expired.flatMap fun row => row.2.inputNames)) ∧
      w'.host.history.rows =
        (expired.map Prod.fst).foldl Std.ExtTreeMap.erase w.host.history.rows := by
  generalize hr : Except.ok e = r at h
  cases expireHistory_steps h with
  | idle => exact .inl ⟨rfl, rfl, rfl, rfl⟩
  | unattached => cases hr
  | refused => cases hr
  | unread => cases hr
  | nothing => exact .inl .later
  | @pruned expired names k w₁ w₂ _ r _ read some gone graph removed deleted =>
    subst graph
    cases r with
    | error f => cases hr
    | ok u =>
      obtain ⟨honly, n, -, hrows, hn⟩ := runs_deleteRows deleted
      obtain ⟨hrest, -⟩ := removeBackups_within removed
      have htracker := honly.tracker.trans (congrArg Prod.fst hrest)
      have hhistory : w₂.host.history = w.host.history := congrArg (fun r => r.2.1) hrest
      refine .inr ⟨expired, read, by rw [htracker, ← gone]; rfl, ?_⟩
      rw [hrows, hn rfl, List.take_length, hhistory]

/-! ## Dropping the backups of outputs -/

theorem runs_dropOutputBackups {r : Except UpkeepError Nat} (h : Runs dropOutputBackups w r w') :
    (w.tracker.active = false ∧ w' = w) ∨
      w.tracker.active = true ∧ Runs (removeBackups w.tracker.graph.outputNames) w r w' := by
  rw [dropOutputBackups, runs_get_bind] at h
  dsimp only at h
  split at h
  · exact .inr ⟨‹_›, h⟩
  · rename_i hactive
    exact .inl ⟨Bool.eq_false_iff.mpr hactive, (runs_pure.mp h).2⟩

/-! ## Stripping -/

/-- Every row is that of a compaction whose inputs have names of which something holds. -/
def RowsOf (P : List String → Prop) (rows : Rows) : Prop :=
  ∀ key value : Bytes, rows[key]? = some value →
    ∃ c : Compaction, value = c.encode ∧ c.Fits ∧ P c.inputNames

/-- A tracker but for its queue and what it counts. -/
def uncounted (t : Tracker) : Tracker := { t with queue := [], metrics := {} }

theorem backupDir_of_uncounted {t t' : Tracker} (h : t.uncounted = t'.uncounted) :
    t.backupDir = t'.backupDir := by
  have hdir := congrArg Tracker.backupDir h
  exact hdir

/-- Files may have been marked and backups replaced, but every row and every backup is where it
was. -/
structure Stripped (w w' : World) : Prop where
  tracker : w'.tracker.uncounted = w.tracker.uncounted
  snapshots : w'.host.snapshots = w.host.snapshots
  disk : Disk.Within w.tracker.InBackups w.disk w'.disk
  backed : ∀ n, Unslashed n → (Backed w' n ↔ Backed w n)
  rows : ∀ P, RowsOf P w.host.history.rows → RowsOf P w'.host.history.rows

theorem Stripped.backupDir (h : Stripped w w') : w'.tracker.backupDir = w.tracker.backupDir :=
  backupDir_of_uncounted h.tracker

instance : Frame Stripped where
  refl _ := ⟨rfl, rfl, Frame.refl _, fun _ _ => Iff.rfl, fun _ => id⟩
  trans h h' := by
    refine ⟨h'.tracker.trans h.tracker, h'.snapshots.trans h.snapshots, ?_,
      fun n hn => (h'.backed n hn).trans (h.backed n hn), fun P hP => h'.rows P (h.rows P hP)⟩
    exact Frame.trans h.disk (h'.disk.mono fun q ⟨x, hx⟩ => ⟨x, h.backupDir ▸ hx⟩)

theorem Stripped.update {t : Tracker} (hw : w' = { w with tracker := t })
    (ht : t.uncounted = w.tracker.uncounted) : Stripped w w' := by
  subst hw
  have hdir := backupDir_of_uncounted ht
  refine ⟨ht, rfl, Frame.refl _, fun n _ => ?_, fun _ => id⟩
  rw [Backed, Backed, Tracker.backupPath, Tracker.backupPath, hdir]
  exact Iff.rfl

theorem Stripped.of_asked (h : Asked w w') : Stripped w w' := by
  have hdisk : w'.disk = w.disk := h.disk
  refine ⟨by rw [h.tracker], h.snapshots, hdisk ▸ Frame.refl _, fun n _ => ?_, ?_⟩
  · rw [Backed, Backed, hdisk, h.tracker]
  · rw [h.history]
    exact fun _ => id

theorem Stripped.later : Stripped w w.later := .of_asked .later

theorem stripped_of_stripBackup {u : Unit}
    (h : Runs (stripBackup (w.tracker.backupPath n)) w (.ok u) w') (hq : w.disk.outage = .quiet)
    (hn : Unslashed n) (hb : Backed w n) :
    Stripped w w' ∧ w'.host.history = w.host.history := by
  obtain ⟨hrest, hdisk, hb'⟩ := runs_stripBackup h hq hn hb
  have htracker : w'.tracker = w.tracker := congrArg Prod.fst hrest
  have hhistory : w'.host.history = w.host.history := congrArg (fun r => r.2.1) hrest
  refine ⟨⟨by rw [htracker], congrArg (fun r => r.2.2) hrest, hdisk.mono ?_, fun m hm => ?_, ?_⟩,
    hhistory⟩
  · intro q hq
    cases hq with
    | inl hq => exact ⟨_, hq.trans spot_scratchPath⟩
    | inr hq => exact ⟨_, hq.trans (spot_backupPath hn)⟩
  · by_cases hmn : m = n
    · subst hmn
      exact iff_of_true hb' hb
    · rw [Backed, Backed, htracker, hdisk.at?_eq]
      refine not_or.mpr ⟨spot_backupPath_ne, fun he => hmn ?_⟩
      exact ((SortedTable.spot_pathIn_inj hm hn).mp he).2
  · rw [hhistory]
    exact fun _ => id

/-- What is known of a file but for the mark. -/
def unmarked (i : FileInfo) : FileInfo := { i with stripped := false }

theorem stripped_of_treated {i i' : FileInfo} (h : Treated i w i' w')
    (hq : w.disk.outage = .quiet) (hn : Unslashed i.name) : Stripped w w' ∧
      w'.host.history = w.host.history ∧ unmarked i' = unmarked i := by
  cases h with
  | before => exact ⟨Frame.refl _, rfl, rfl⟩
  | copied _ backed ran =>
    obtain ⟨h₁, hh₁⟩ := stripped_of_stripBackup ran hq hn backed
    exact ⟨Frame.trans h₁ (.update rfl rfl), hh₁, rfl⟩
  | skipped => exact ⟨.update rfl rfl, rfl, rfl⟩

theorem runs_stripInputs {run run' : StripRun} {is is' : List FileInfo}
    (h : Runs (stripInputs run is) w (.ok (is', run')) w') (hq : w.disk.outage = .quiet)
    (hnames : ∀ i ∈ is, Unslashed i.name) : Stripped w w' ∧
      w'.host.history = w.host.history ∧ is'.map unmarked = is.map unmarked := by
  induction is generalizing w run is' run' with
  | nil =>
    obtain ⟨hr, rfl⟩ := runs_pure.mp h
    cases hr
    exact ⟨Frame.refl _, rfl, rfl⟩
  | cons i rest ih =>
    rw [List.forall_mem_cons] at hnames
    rcases stripInputs_steps h with ⟨i', w₁, run₁, r₁, hfirst, -, hrest, hr⟩ | ⟨-, -, e, -, hr⟩
    · cases r₁ with
      | error e => cases hr
      | ok x =>
        cases hr
        obtain ⟨h₁, hh₁, hi⟩ := stripped_of_treated hfirst hq hnames.1
        obtain ⟨h₂, hh₂, hmap⟩ := ih hrest (h₁.disk.quiet hq) hnames.2
        exact ⟨Frame.trans h₁ h₂, hh₂.trans hh₁, by rw [List.map_cons, List.map_cons, hi, hmap]⟩
    · cases hr

theorem fits_unmarked {i : FileInfo} : (unmarked i).Fits ↔ i.Fits :=
  ⟨fun h => ⟨h.name, h.first, h.last, h.family⟩, fun h => ⟨h.name, h.first, h.last, h.family⟩⟩

/-- A compaction whose inputs were marked names the same files, and has a row if it had one. -/
theorem fits_of_unmarked {c : Compaction} {inputs : List FileInfo} (hc : c.Fits)
    (h : inputs.map unmarked = c.inputs.map unmarked) :
    ({ c with inputs } : Compaction).Fits ∧
      ({ c with inputs } : Compaction).inputNames = c.inputNames := by
  have hlength : inputs.length = c.inputs.length := by
    rw [← List.length_map (f := unmarked), h, List.length_map]
  refine ⟨⟨⟨?_, fun i hi => ?_⟩, hc.outputs, hc.reason⟩, ?_⟩
  · rw [Wire.ShortList, hlength]
    exact hc.inputs.1
  · have hmem : unmarked i ∈ c.inputs.map unmarked := h ▸ List.mem_map_of_mem hi
    obtain ⟨j, hj, he⟩ := List.mem_map.mp hmem
    exact fits_unmarked.mp (he ▸ fits_unmarked.mpr (hc.inputs.2 j hj))
  · have hnames := congrArg (List.map FileInfo.name) h
    rw [List.map_map, List.map_map] at hnames
    exact hnames

theorem RowsOf.imp {P Q : List String → Prop} {rows : Rows} (h : RowsOf P rows)
    (hpq : ∀ names, P names → Q names) : RowsOf Q rows := by
  intro key value hv
  obtain ⟨c, he, hfits, hP⟩ := h key value hv
  exact ⟨c, he, hfits, hpq _ hP⟩

theorem RowsOf.insert {P : List String → Prop} {rows : Rows} {key : Bytes} {c : Compaction}
    (h : RowsOf P rows) (hc : c.Fits) (hP : P c.inputNames) :
    RowsOf P (rows.insert key c.encode) := by
  intro k v hk
  rw [Std.ExtTreeMap.getElem?_insert] at hk
  split at hk
  · cases hk
    exact ⟨c, rfl, hc, hP⟩
  · exact h k v hk

theorem RowsOf.readRow {P : List String → Prop} {rows : Rows} {key value : Bytes} {c : Compaction}
    (h : RowsOf P rows) (hv : rows[key]? = some value) (hc : History.readRow value = .ok c) :
    c.Fits ∧ P c.inputNames := by
  obtain ⟨c', rfl, hfits, hP⟩ := h key value hv
  rw [Compaction.readRow_encode hfits] at hc
  cases hc
  exact ⟨hfits, hP⟩

theorem Stripped.put {key : Bytes} {c : Compaction} {u : Unit}
    (h : Runs (onHost UpkeepError.table (Host.putRow key c.encode)) w (.ok u) w') (hfits : c.Fits)
    (hnames : ∀ P, RowsOf P w.host.history.rows → P c.inputNames) : Stripped w w' := by
  obtain ⟨host, hhost, rfl⟩ := World.runs_onHost_ok.mp h
  obtain ⟨hrows, hsnap⟩ := Host.putRow_ok hhost
  have hw : Disk.Within (fun _ => False) w.disk host.disk := Host.within_putRow _ _ _ hhost
  refine ⟨rfl, hsnap, hw.mono fun _ => False.elim, fun n _ => ?_, fun P hP => ?_⟩
  · have hat := hw.at?_eq (p := w.tracker.backupPath n) id
    rw [Backed, Backed, ← hat]
    exact Iff.rfl
  · rw [hrows]
    exact hP.insert hfits (hnames P hP)

theorem runs_stripCompaction {run run' : StripRun} {key : Bytes}
    (h : Runs (stripCompaction run key) w (.ok run') w') (hq : w.disk.outage = .quiet)
    (hrows : RowsOf (∀ n ∈ ·, Unslashed n) w.host.history.rows) : Stripped w w' := by
  have hinputs {row : Bytes} {c : Compaction} {inputs : List FileInfo} {run' : StripRun} {w₁ : World}
      (found : w.host.history.rows[key]? = some row) (read : History.readRow row = .ok c)
      (ran : Runs (stripInputs run c.inputs) w.later (.ok (inputs, run')) w₁) :
      Stripped w w₁ ∧ w₁.host.history = w.host.history ∧ ({ c with inputs } : Compaction).Fits ∧
        ({ c with inputs } : Compaction).inputNames = c.inputNames := by
    obtain ⟨hfits, hnames⟩ := hrows.readRow found read
    obtain ⟨h₁, hh₁, hmap⟩ := runs_stripInputs ran hq
      fun i hi => hnames i.name (List.mem_map_of_mem hi)
    exact ⟨Frame.trans .later h₁, hh₁, fits_of_unmarked hfits hmap⟩
  generalize hr : Except.ok run' = r at h
  cases strips_of_stripCompaction h with
  | unread => cases hr
  | gone => exact .later
  | stuck => cases hr
  | same found read ran => exact (hinputs found read ran).1
  | unsaved => cases hr
  | @put row c inputs _ w₁ _ r found read ran _ ran' =>
    cases r with
    | error e => cases hr
    | ok u =>
      obtain ⟨h₁, hh₁, hfits, hnames⟩ := hinputs found read ran
      refine Frame.trans (Frame.trans h₁ .later) (.put ran' hfits fun P hP => ?_)
      have hP' : RowsOf P w.host.history.rows := hh₁ ▸ hP
      rw [hnames]
      exact (hP'.readRow found read).2

theorem runs_stripQueued {left : Nat} {run run' : StripRun}
    (h : Runs (stripQueued left run) w (.ok run') w') (hq : w.disk.outage = .quiet)
    (hrows : RowsOf (∀ n ∈ ·, Unslashed n) w.host.history.rows) : Stripped w w' := by
  induction left generalizing w run with
  | zero =>
    obtain ⟨-, rfl⟩ := runs_pure.mp h
    exact Frame.refl _
  | succ left ih =>
    cases hqueue : w.queue with
    | nil =>
      obtain ⟨-, rfl⟩ := (runs_stripQueued_nil hqueue).mp h
      exact Frame.refl _
    | cons key rest =>
      rcases stripQueued_steps hqueue h with ⟨e, w₁, -, hr, -⟩ | ⟨run₁, w₁, hstrip, h⟩
      · cases hr
      · have h₁ := runs_stripCompaction hstrip hq hrows
        have hnext : Stripped w₁ { w₁ with tracker := { w₁.tracker with queue := rest } } :=
          .update rfl rfl
        have h₂ := Frame.trans h₁ hnext
        exact Frame.trans h₂ (ih h (h₂.disk.quiet hq) (h₂.rows _ hrows))

theorem runs_stripBackups {run : StripRun} (h : Runs stripBackups w (.ok run) w')
    (hq : w.disk.outage = .quiet)
    (hrows : RowsOf (∀ n ∈ ·, Unslashed n) w.host.history.rows) : Stripped w w' := by
  rw [runs_stripBackups_iff] at h
  split at h
  · split at h
    · have h₁ : Stripped w { w with tracker := w.tracker.countBatch } := .update rfl rfl
      exact Frame.trans h₁ (runs_stripQueued h (h₁.disk.quiet hq) (h₁.rows _ hrows))
    · cases h.1
  · rw [h.2]
    exact Frame.refl _

end Lineage.Tracker
