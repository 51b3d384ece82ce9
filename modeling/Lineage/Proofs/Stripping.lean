import Lineage.Proofs.Disk.Files
import Lineage.Proofs.Upkeep

/-!
# How far stripping reaches

However a round of stripping ends, it has taken away, put and made files nowhere but right inside
the backup directory, as long as the rows of the history name files without slashes
(`scrubs_stripBackups`); and its rows are then such still.
-/

namespace Lineage

open World (onDisk onHost update)

/-! ## Files of a disk -/

namespace Disk

variable {d d' : Disk} {places places' : Place → Prop} {source target : Path}

/-- Files came and went at some places only. -/
def Spares (places : Place → Prop) (d d' : Disk) : Prop :=
  ∀ q id, ¬ places q → (d'.node? q = some (.file id) ↔ d.node? q = some (.file id))

instance : Frame (Spares places) where
  refl _ _ _ _ := Iff.rfl
  trans h h' q id hq := (h' q id hq).trans (h q id hq)

theorem Spares.mono (h : d.Spares places d') (hp : ∀ q, places q → places' q) :
    d.Spares places' d' :=
  fun q id hq => h q id fun hplaces => hq (hp q hplaces)

theorem Within.spares (h : Within places d d') : d.Spares places d' := by
  intro q id hq
  rw [(h.node q).resolve_right fun hplaces => hq hplaces.1]

/-- A directory that is made takes no file's place. -/
theorem AddsDirectories.spares (h : AddsDirectories d d') : d.Spares places d' := by
  intro q id _
  rcases h.node q with he | ⟨hnone, hdir⟩
  · rw [he]
  · rw [hnone, hdir]
    exact ⟨nofun, nofun⟩

theorem spares_stripFile {size : Nat} :
    Moves (Spares (· = target.spot)) (SortedTable.stripFile source target size) := by
  have hload : Moves (Spares (· = target.spot)) (SortedTable.load source) :=
    moves_bind (moves_adapt fun d r d' h => (moves_query d r d' h).spares) fun _ => moves_ofExcept
  have hstore {b : Bytes} : Moves (Spares (· = target.spot)) (SortedTable.store target b) :=
    moves_adapt <| moves_bind (fun d r d' h => (addsDirectories_makeParents d r d' h).spares)
      fun _ d r d' h => (moves_writeFile d r d' h).spares
  exact moves_bind hload fun _ => moves_bind hstore fun _ => moves_ofExcept

end Disk

/-- What is done on the disk moves the disk as it does. -/
theorem World.moves_onDisk {ε ε' α : Type} {R : Disk → Disk → Prop} {wrap : ε → ε'}
    {a : Disk.Action ε α} (ha : Moves R a) : Moves (InvImage R World.disk) (onDisk wrap a) := by
  intro w r w' h
  obtain ⟨r₀, d, hd, -, rfl⟩ := World.runs_onDisk.mp h
  exact ha _ _ _ hd

/-- A compaction can be read back from its row, and names its files without slashes. -/
structure Compaction.Plain (c : Compaction) : Prop where
  fits : c.Fits
  inputs : ∀ n ∈ c.inputNames, Unslashed n
  outputs : ∀ n ∈ c.outputNames, Unslashed n

namespace Tracker

variable {w w' : World} {path : Path} {n : String}

/-! ## One backup -/

theorem spares_stripBackup {r : Except UpkeepError Unit} (h : Runs (stripBackup path) w r w') :
    w'.rest = w.rest ∧
      w.disk.Spares (fun q => q = w.tracker.scratchPath.spot ∨ q = path.spot) w'.disk := by
  rw [stripBackup, runs_get_bind] at h
  refine ⟨?_, ?_⟩
  · exact moves_bind (moves_discard World.rest_onDisk) (fun _ =>
      moves_bind (moves_discard World.rest_onDisk) fun _ =>
        moves_bind World.rest_onDisk fun _ => World.rest_onDisk) _ _ _ h
  · have hclear : Moves (Disk.Spares fun q => q = w.tracker.scratchPath.spot ∨ q = path.spot)
        (Disk.discardFile w.tracker.scratchPath) :=
      fun d r d' h => (Disk.moves_discardFile d r d' h).spares.mono fun _ => .inl
    have hstrip : Moves (Disk.Spares fun q => q = w.tracker.scratchPath.spot ∨ q = path.spot)
        (SortedTable.stripFile path w.tracker.scratchPath w.tracker.options.stripBlockSize) :=
      fun d r d' h => (Disk.spares_stripFile d r d' h).mono fun _ => .inl
    have hrename : Moves (Disk.Spares fun q => q = w.tracker.scratchPath.spot ∨ q = path.spot)
        (Disk.rename w.tracker.scratchPath path) :=
      fun d r d' h => (Disk.moves_rename d r d' h).spares
    have hsettle : Moves (Disk.Spares fun q => q = w.tracker.scratchPath.spot ∨ q = path.spot)
        (Disk.settle path) :=
      fun d r d' h => (Disk.moves_settle d r d' h).spares
    exact moves_bind (moves_discard (World.moves_onDisk hclear)) (fun _ =>
      moves_bind (moves_discard (World.moves_onDisk hstrip)) fun _ =>
        moves_bind (World.moves_onDisk hrename) fun _ => World.moves_onDisk hsettle) _ _ _ h

/-! ## Rows -/

/-- Every row is that of a compaction which names its files without slashes. -/
def PlainRows (rows : Rows) : Prop :=
  ∀ key value : Bytes, rows[key]? = some value → ∃ c : Compaction, value = c.encode ∧ c.Plain

theorem PlainRows.insert {rows : Rows} {key : Bytes} {c : Compaction} (h : PlainRows rows)
    (hc : c.Plain) : PlainRows (rows.insert key c.encode) := by
  intro k v hk
  rw [Std.ExtTreeMap.getElem?_insert] at hk
  split at hk
  · cases hk
    exact ⟨c, rfl, hc⟩
  · exact h k v hk

theorem PlainRows.readRow {rows : Rows} {key value : Bytes} {c : Compaction} (h : PlainRows rows)
    (hv : rows[key]? = some value) (hc : History.readRow value = .ok c) : c.Plain := by
  obtain ⟨c', rfl, hplain⟩ := h key value hv
  rw [Compaction.readRow_encode hplain.fits] at hc
  cases hc
  exact hplain

/-- Files came and went in the backup directory only, and rows stay plain. -/
structure Scrubs (w w' : World) : Prop where
  tracker : w'.tracker.uncounted = w.tracker.uncounted
  disk : w.disk.Spares w.tracker.InBackups w'.disk
  rows : PlainRows w.host.history.rows → PlainRows w'.host.history.rows

instance : Frame Scrubs where
  refl _ := ⟨rfl, Frame.refl _, id⟩
  trans h h' := by
    refine ⟨h'.tracker.trans h.tracker, ?_, fun hr => h'.rows (h.rows hr)⟩
    exact Frame.trans h.disk (h'.disk.mono fun q ⟨x, hx⟩ =>
      ⟨x, backupDir_of_uncounted h.tracker ▸ hx⟩)

theorem Scrubs.update {t : Tracker} (hw : w' = { w with tracker := t })
    (ht : t.uncounted = w.tracker.uncounted) : Scrubs w w' := by
  subst hw
  exact ⟨ht, Frame.refl _, id⟩

theorem Scrubs.of_asked (h : Asked w w') : Scrubs w w' where
  tracker := by rw [h.tracker]
  disk := (show w'.disk = w.disk from h.disk) ▸ Frame.refl _
  rows := h.history ▸ id

theorem Scrubs.later : Scrubs w w.later := .of_asked .later

theorem scrubs_stripBackup {r : Except UpkeepError Unit} (hn : Unslashed n)
    (h : Runs (stripBackup (w.tracker.backupPath n)) w r w') :
    Scrubs w w' ∧ w'.host.history = w.host.history := by
  obtain ⟨hrest, hdisk⟩ := spares_stripBackup h
  have htracker : w'.tracker = w.tracker := congrArg Prod.fst hrest
  have hhistory : w'.host.history = w.host.history := congrArg (fun r => r.2.1) hrest
  refine ⟨⟨by rw [htracker], hdisk.mono fun q hq => ?_, hhistory ▸ id⟩, hhistory⟩
  rcases hq with hq | hq
  · exact ⟨_, hq.trans spot_scratchPath⟩
  · exact ⟨_, hq.trans (spot_backupPath hn)⟩

theorem scrubs_putRow {key : Bytes} {c : Compaction} {r : Except UpkeepError Unit}
    (hc : c.Plain)
    (h : Runs (onHost UpkeepError.table (Host.putRow key c.encode)) w r w') : Scrubs w w' := by
  obtain ⟨r₀, host, hhost, -, rfl⟩ := World.runs_onHost.mp h
  have hdisk : Disk.Within w.tracker.InBackups w.disk host.disk := Host.within_putRow _ _ _ hhost
  refine ⟨rfl, hdisk.spares, fun hr => ?_⟩
  cases r₀ with
  | ok u =>
    rw [(Host.putRow_ok hhost).1]
    exact hr.insert hc
  | error e =>
    rw [(Host.changeHistory_error hhost).1]
    exact hr

/-! ## All backups -/

theorem scrubs_of_treated {i i' : FileInfo} (h : Treated i w i' w') (hn : Unslashed i.name) :
    Scrubs w w' ∧ w'.host.history = w.host.history ∧ unmarked i' = unmarked i := by
  cases h with
  | before => exact ⟨Frame.refl _, rfl, rfl⟩
  | copied _ _ ran =>
    obtain ⟨h₁, hh₁⟩ := scrubs_stripBackup hn ran
    exact ⟨Frame.trans h₁ (.update rfl rfl), hh₁, rfl⟩
  | skipped => exact ⟨.update rfl rfl, rfl, rfl⟩

theorem scrubs_stripInputs {run : StripRun} {is : List FileInfo}
    {r : Except UpkeepError (List FileInfo × StripRun)} (hnames : ∀ i ∈ is, Unslashed i.name)
    (h : Runs (stripInputs run is) w r w') : Scrubs w w' ∧ w'.host.history = w.host.history ∧
      ∀ is' run', r = .ok (is', run') → is'.map unmarked = is.map unmarked := by
  induction is generalizing w run r with
  | nil =>
    obtain ⟨rfl, rfl⟩ := runs_pure.mp h
    refine ⟨Frame.refl _, rfl, fun is' run' he => ?_⟩
    cases he
    rfl
  | cons i rest ih =>
    rw [List.forall_mem_cons] at hnames
    rcases stripInputs_steps h with ⟨i', w₁, run₁, r₁, hfirst, -, hrest, rfl⟩ | ⟨-, -, e, hstrip, rfl⟩
    · obtain ⟨h₁, hh₁, hi⟩ := scrubs_of_treated hfirst hnames.1
      obtain ⟨h₂, hh₂, hmap⟩ := ih hnames.2 hrest
      refine ⟨Frame.trans h₁ h₂, hh₂.trans hh₁, fun is' run' he => ?_⟩
      cases r₁ with
      | error e => cases he
      | ok x =>
        cases he
        rw [List.map_cons, List.map_cons, hi, hmap x.1 x.2 rfl]
    · obtain ⟨h₁, hh₁⟩ := scrubs_stripBackup hnames.1 hstrip
      exact ⟨h₁, hh₁, fun _ _ he => by cases he⟩

theorem scrubs_stripCompaction {run : StripRun} {key : Bytes} {r : Except UpkeepError StripRun}
    (hrows : PlainRows w.host.history.rows) (h : Runs (stripCompaction run key) w r w') :
    Scrubs w w' := by
  have hinputs {row : Bytes} {c : Compaction} {w₁ : World}
      {r : Except UpkeepError (List FileInfo × StripRun)}
      (found : w.host.history.rows[key]? = some row) (read : History.readRow row = .ok c)
      (ran : Runs (stripInputs run c.inputs) w.later r w₁) : Scrubs w w₁ ∧
        ∀ inputs run', r = .ok (inputs, run') → ({ c with inputs } : Compaction).Plain := by
    have hc := hrows.readRow found read
    obtain ⟨h₁, -, hmap⟩ := scrubs_stripInputs
      (fun i hi => hc.inputs i.name (List.mem_map_of_mem hi)) ran
    refine ⟨Frame.trans .later h₁, fun inputs run' hr => ?_⟩
    obtain ⟨hfits, hnames⟩ := fits_of_unmarked hc.fits (hmap inputs run' hr)
    exact ⟨hfits, hnames ▸ hc.inputs, hc.outputs⟩
  cases strips_of_stripCompaction h with
  | unread => exact .later
  | gone => exact .later
  | stuck found read ran => exact (hinputs found read ran).1
  | same found read ran => exact (hinputs found read ran).1
  | unsaved found read ran => exact Frame.trans (hinputs found read ran).1 .later
  | put found read ran _ ran' =>
    obtain ⟨h₁, hplain⟩ := hinputs found read ran
    exact Frame.trans (Frame.trans h₁ .later) (scrubs_putRow (hplain _ _ rfl) ran')

theorem scrubs_stripQueued {left : Nat} {run : StripRun} {r : Except UpkeepError StripRun}
    (hrows : PlainRows w.host.history.rows) (h : Runs (stripQueued left run) w r w') :
    Scrubs w w' := by
  induction left generalizing w run with
  | zero =>
    rw [(runs_pure.mp h).2]
    exact Frame.refl _
  | succ left ih =>
    cases hqueue : w.queue with
    | nil =>
      rw [((runs_stripQueued_nil hqueue).mp h).2]
      exact Frame.refl _
    | cons key rest =>
      rcases stripQueued_steps hqueue h with ⟨e, w₁, hstrip, -, rfl⟩ | ⟨run₁, w₁, hstrip, h⟩
      · exact Frame.trans (scrubs_stripCompaction hrows hstrip) (.update rfl rfl)
      · have hnext : Scrubs w₁ { w₁ with tracker := { w₁.tracker with queue := rest } } :=
          .update rfl rfl
        have hs := Frame.trans (scrubs_stripCompaction hrows hstrip) hnext
        exact Frame.trans hs (ih (hs.rows hrows) h)

theorem scrubs_stripBackups {r : Except UpkeepError StripRun}
    (hrows : PlainRows w.host.history.rows) (h : Runs stripBackups w r w') : Scrubs w w' := by
  rw [runs_stripBackups_iff] at h
  split at h
  · split at h
    · have hcount : Scrubs w { w with tracker := w.tracker.countBatch } := .update rfl rfl
      exact Frame.trans hcount (scrubs_stripQueued (hcount.rows hrows) h)
    · rw [h.2]
      exact Frame.refl _
  · rw [h.2]
    exact Frame.refl _

end Tracker

end Lineage
