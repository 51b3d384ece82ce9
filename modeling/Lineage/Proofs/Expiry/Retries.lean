import Lineage.Proofs.Expiry

/-!
# Expiry that is done again

A run of expiry that fails stops before it changes anything, or while it deletes rows (`Underway`).
The next run finds the compactions whose rows are left, whose files went with the first one, so it
goes on deleting and does nothing else (`Underway.run`). A run that goes through takes away what
expired and nothing else (`Cleaned`), and however often runs failed before it, it ends where one that
never failed would (`expireHistory_retried`).
-/

namespace Lineage.Tracker

open World (onDisk onHost update)

variable {sure : Prop} {w w₁ w₂ w' : World} {now now₁ : UInt64} {n : Nat}

/-! ## Repeated runs -/

/-- Failing runs were repeated, each under failures of its own, while what expired at first and was
still there was what expired; `sure` says that no removal of a file was refused to any of them. -/
inductive Repeated (sure : Prop) (w : World) (now : UInt64) : World → Prop
  | start : Repeated sure w now w
  | replan {w₁ w₂ : World} (before : Repeated sure w now w₁) (same : w₂.calm = w₁.calm) :
      Repeated sure w now w₂
  | again {w₁ w₂ : World} {now₁ : UInt64} {e : UpkeepError} (before : Repeated sure w now w₁)
      (expired : expiredIn w₁ now₁ = stillIn w₁ (expiredIn w now)) (removing : sure → Removing w₁)
      (failed : Runs (expireHistory now₁) w₁ (.error e) w₂) : Repeated sure w now w₂

/-- How far expiry has come: nothing is done yet, or all but to delete some rows. -/
inductive Underway (sure : Prop) (w : World) (now : UInt64) (w₁ : World) : Prop
  | fresh (same : w₁.calm = w.calm)
  | pruned (n : Nat) (le : n ≤ (expiredIn w now).length) (some : expiredIn w now ≠ [])
      (done : Pruned sure w (expiredIn w now) n w₁)

/-- What expired is gone. -/
inductive Finished (sure : Prop) (w : World) (now : UInt64) (w₁ : World) : Prop
  | none (empty : expiredIn w now = []) (same : w₁.calm = w.calm)
  | pruned (some : expiredIn w now ≠ [])
      (done : Pruned sure w (expiredIn w now) (expiredIn w now).length w₁)

namespace Underway

theorem tracker (h : Underway sure w now w₁) :
    w₁.tracker = { w.tracker with graph := w₁.tracker.graph } := by
  cases h with
  | fresh same => rw [tracker_of_calm same]
  | pruned n le some done => rw [done.tracker]

theorem options (h : Underway sure w now w₁) : w₁.tracker.options = w.tracker.options := by
  rw [h.tracker]

theorem rows (h : Underway sure w now w₁) : ∃ n ≤ (expiredIn w now).length,
    w₁.host.history.rows =
      (((expiredIn w now).map Prod.fst).take n).foldl Std.ExtTreeMap.erase w.host.history.rows := by
  cases h with
  | fresh same => exact ⟨0, Nat.zero_le _, by rw [history_of_calm same]; rfl⟩
  | pruned n le some done => exact ⟨n, le, done.rows⟩

theorem replan (h : Underway sure w now w₁) (same : w₂.calm = w₁.calm) : Underway sure w now w₂ := by
  cases h with
  | fresh same' => exact .fresh (same.trans same')
  | pruned n le some done => exact .pruned n le some (done.of_calm same)

theorem stillIn_fresh (h : w₁.calm = w.calm) : stillIn w₁ (expiredIn w now) = expiredIn w now :=
  stillIn_eq_drop (n := 0) (by rw [history_of_calm h]; rfl)

/-- Where nothing has expired that is still there, nothing is left to do. -/
theorem finished (h : Underway sure w now w₁) (hnone : stillIn w₁ (expiredIn w now) = []) :
    Finished sure w now w₁ := by
  cases h with
  | fresh same => exact .none ((stillIn_fresh same).symm.trans hnone) same
  | pruned n le some done =>
    rw [stillIn_eq_drop done.rows, List.drop_eq_nil_iff] at hnone
    exact .pruned some (Nat.le_antisymm le hnone ▸ done)

/-- Backups are removed at first, and later none is left to remove. -/
theorem remove {k : Nat} {expired : List (Bytes × Compaction)} (h : Underway sure w now w₁)
    (hexpired : expired = stillIn w₁ (expiredIn w now)) (hsome : expired ≠ [])
    (hsure : sure → Removing w₁)
    (hr : Runs (removeBackups (goneWith w₁ expired).toList) { w₁.later with
      tracker := { w₁.tracker with graph := (w₁.tracker.graph.expire (inputsOf expired)).2 } }
      (.ok k) w₂) : expiredIn w now ≠ [] ∧ ∃ n ≤ (expiredIn w now).length,
        expired = (expiredIn w now).drop n ∧ Pruned sure w (expiredIn w now) n w₂ := by
  cases h with
  | fresh same =>
    rw [stillIn_fresh same] at hexpired
    subst hexpired
    rw [goneWith, tracker_of_calm same] at hr
    exact ⟨hsome, 0, Nat.zero_le _, rfl, .start same hsure hr⟩
  | pruned n le some done =>
    rw [stillIn_eq_drop done.rows] at hexpired
    subst hexpired
    exact ⟨some, n, le, rfl, done.again (fun _ => List.mem_of_mem_drop) hr⟩

/-- A run goes on where the last one stopped. -/
theorem run {r : Except UpkeepError Expired} (h : Underway sure w now w₁)
    (hactive : w.tracker.active = true)
    (hage : w.tracker.options.maxAge.milliseconds < UInt64.size)
    (hexpired : expiredIn w₁ now₁ = stillIn w₁ (expiredIn w now)) (hsure : sure → Removing w₁)
    (hr : Runs (expireHistory now₁) w₁ r w₂) :
    Underway sure w now w₂ ∧ ∀ x, r = .ok x → Finished sure w now w₂ := by
  have hage₁ : w₁.tracker.options.maxAge.milliseconds < UInt64.size := h.options ▸ hage
  cases expireHistory_steps hr with
  | idle off =>
    rw [h.tracker] at off
    cases hactive.symm.trans off
  | unattached => exact ⟨h, nofun⟩
  | refused => exact ⟨h.replan Asked.later.calm, nofun⟩
  | unread => exact ⟨h.replan Asked.later.calm, nofun⟩
  | nothing _ read =>
    have hlater := h.replan Asked.later.calm
    exact ⟨hlater, fun _ _ => hlater.finished (hexpired.symm.trans (eq_expiredIn hage₁ read).1.symm)⟩
  | @pruned _ _ _ _ _ _ r _ read some gone graph removed deleted =>
    subst gone graph
    obtain ⟨hsome, n, hn, rfl, hpruned⟩ :=
      h.remove ((eq_expiredIn hage₁ read).1.trans hexpired) some hsure removed
    obtain ⟨m, hm, hdone, hall⟩ := hpruned.delete hn deleted
    refine ⟨.pruned m hm hsome hdone, fun x hx => .pruned hsome ?_⟩
    cases r with
    | ok u => exact hall rfl ▸ hdone
    | error e => cases hx

/-- Where nothing is refused, a run goes through. -/
theorem exists_run (h : Underway sure w now w₁) (hattached : w.tracker.attached = true)
    (hage : w.tracker.options.maxAge.milliseconds < UInt64.size) (hread : ¬ Unreadable w now) :
    ∃ x w₂, Runs (expireHistory now) w₁.calm (.ok x) w₂ := by
  replace h : Underway sure w now w₁.calm := h.replan rfl
  have hage₁ : w₁.calm.tracker.options.maxAge.milliseconds < UInt64.size := h.options ▸ hage
  have hq : w₁.calm.Quiet := quiet_calm
  obtain ⟨r, w₂, hr⟩ := exists_runs (expireHistory now) w₁.calm
  generalize w₁.calm = w₁ at *
  cases expireHistory_steps hr with
  | idle => exact ⟨_, _, hr⟩
  | unattached _ no =>
    rw [h.tracker] at no
    cases hattached.symm.trans no
  | refused _ cause => exact absurd ⟨_, cause⟩ hq.not_refused
  | unread _ read =>
    obtain ⟨n, hn, hrows⟩ := h.rows
    exact absurd (unreadable_of_error hage₁ read)
      (mt (expiredIn_eq_drop hrows hn h.options).2.mp hread)
  | nothing => exact ⟨_, _, hr⟩
  | pruned _ read some gone graph removed deleted =>
    subst graph
    obtain ⟨rfl, -⟩ :=
      deleteRows_quiet (removeBackups_quiet (by exact ⟨hq.later.disk, hq.later.history⟩) removed)
        deleted
    exact ⟨_, _, hr⟩

end Underway

theorem Repeated.underway (h : Repeated sure w now w₁) (hactive : w.tracker.active = true)
    (hage : w.tracker.options.maxAge.milliseconds < UInt64.size) : Underway sure w now w₁ := by
  induction h with
  | start => exact .fresh rfl
  | replan _ same ih => exact ih.replan same
  | again _ expired removing failed ih => exact (ih.run hactive hage expired removing failed).1

/-- Two worlds that come of one agree in rows, tracker and bytes, and in the names too if no removal
was refused on the way. -/
structure Alike (sure : Prop) (w w₂ w₃ : World) : Prop where
  rows : w₂.host.history.rows = w₃.host.history.rows
  tracker : w₂.tracker = w₃.tracker
  names : sure → ∀ q, w₂.disk.node? q = w₃.disk.node? q
  content : ∀ id, ¬ w.host.history.file? = some id → w₂.disk.content id = w₃.disk.content id

theorem Alike.of_calm (h : w₂.calm = w₁.calm) : Alike sure w w₂ w₁ where
  rows := by rw [history_of_calm h]
  tracker := tracker_of_calm h
  names _ q := congrArg (fun w => w.disk.node? q) h
  content id _ := congrArg (fun w => w.disk.content id) h

/-- Where expiry ends does not depend on how it came there. -/
theorem Finished.alike {w₃ : World} (h : Finished sure w now w₂) (h' : Finished sure w now w₃) :
    Alike sure w w₂ w₃ := by
  cases h with
  | none empty same =>
    cases h' with
    | none _ same' => exact .of_calm (same.trans same'.symm)
    | pruned some => exact absurd empty some
  | pruned some done =>
    cases h' with
    | none empty => exact absurd empty some
    | pruned _ done' =>
      exact ⟨done.rows.trans done'.rows.symm, done.tracker.trans done'.tracker.symm,
        fun hs => (done.cleared hs).unique (done'.cleared hs),
        fun id hid => (done.content id hid).trans (done'.content id hid).symm⟩

/-- A run that cannot tell what expired changes nothing. -/
theorem expireHistory_obscured {r : Except UpkeepError Expired} (hactive : w.tracker.active = true)
    (hage : w.tracker.options.maxAge.milliseconds < UInt64.size)
    (hobscured : (∃ f, w.host.outage 0 .scan = some f) ∨ Unreadable w now)
    (h : Runs (expireHistory now) w r w') : (∃ e, r = .error e) ∧ Asked w w' := by
  have hscans {expired : List (Bytes × Compaction)} (hs : Scans w) (hread : expiredRows now
      (ageLimit w.tracker.options) w.host.history.rows.toList = .ok expired) : False := by
    rcases hobscured with ⟨f, hf⟩ | hnot
    · cases hs.scanned.symm.trans hf
    · exact (eq_expiredIn hage hread).2 hnot
  cases expireHistory_steps h with
  | idle off => cases hactive.symm.trans off
  | unattached => exact ⟨⟨_, rfl⟩, rfl, rfl, rfl, rfl⟩
  | refused => exact ⟨⟨_, rfl⟩, .later⟩
  | unread => exact ⟨⟨_, rfl⟩, .later⟩
  | nothing scans read => exact (hscans scans read).elim
  | pruned scans read => exact (hscans scans read).elim

/-! ## What is gone and what is left -/

/-- A path leads where the backup path of one of some files does. -/
def LeadsToBackup (w : World) (names : Names) (p : Path) : Prop :=
  ∃ m ∈ names, w.disk.place (w.tracker.backupPath m) = .ok p.spot

theorem leadsToBackup_iff {names : Names} {p : Path} : LeadsToBackup w names p ↔
    ∃ p' ∈ names.toList.map w.tracker.backupPath, w.disk.place p' = .ok p.spot := by
  simp only [LeadsToBackup, List.mem_map, Std.ExtTreeSet.mem_toList, exists_exists_and_eq_and]

/-- Where names have no slash, the backup path of a file leads to no other file's backup. -/
theorem leadsToBackup_backupPath {names : Names} {m : String} (hm : Unslashed m)
    (hnames : ∀ x ∈ names, Unslashed x)
    (hplace : w.disk.place (w.tracker.backupPath m) = .ok (w.tracker.backupPath m).spot) :
    LeadsToBackup w names (w.tracker.backupPath m) ↔ m ∈ names := by
  constructor
  · rintro ⟨x, hx, hspot⟩
    rwa [((SortedTable.spot_pathIn_inj hm (hnames x hx)).mp (Disk.place_eq_spot hspot)).2]
  · exact fun hmem => ⟨m, hmem, hplace⟩

/-- What expired is gone and nothing else: of the rows those that expired, of the graph the files
that go with them, and of the files those that their backup paths lead to, unless a removal was
refused. -/
structure Cleaned (w : World) (now : UInt64) (w' : World) : Prop where
  rows : ∀ key row : Bytes, w'.host.history.rows[key]? = some row ↔
    w.host.history.rows[key]? = some row ∧ key ∉ (expiredIn w now).map Prod.fst
  tracker : w'.tracker =
    { w.tracker with graph := (w.tracker.graph.expire (inputsOf (expiredIn w now))).2 }
  content : ∀ id, ¬ w.host.history.file? = some id → w'.disk.content id = w.disk.content id
  sheds : w.disk.Sheds w'.disk
  kept : ∀ p id, w.disk.at? p = some (.file id) →
    ¬ LeadsToBackup w (goneWith w (expiredIn w now)) p → w'.disk.at? p = some (.file id)
  gone : Removing w → ∀ p id, w.disk.at? p = some (.file id) →
    LeadsToBackup w (goneWith w (expiredIn w now)) p → w'.disk.at? p = none
  backups : (∀ m ∈ goneWith w (expiredIn w now), Unslashed m) → ∀ n id, Unslashed n →
    w.disk.at? (w.tracker.backupPath n) = some (.file id) →
    (n ∉ goneWith w (expiredIn w now) →
      w'.disk.at? (w.tracker.backupPath n) = some (.file id)) ∧
    (Removing w → n ∈ goneWith w (expiredIn w now) →
      w'.disk.at? (w.tracker.backupPath n) = none)

theorem Pruned.cleaned
    (h : Pruned (Removing w) w (expiredIn w now) (expiredIn w now).length w') :
    Cleaned w now w' := by
  have hkept (p : Path) (id : FileId) (hp : w.disk.at? p = some (.file id))
      (hnot : ¬ LeadsToBackup w (goneWith w (expiredIn w now)) p) :
      w'.disk.at? p = some (.file id) :=
    h.shed.at?_eq hp (mt leadsToBackup_iff.mpr hnot)
  have hgone (hs : Removing w) (p : Path) (id : FileId) (hp : w.disk.at? p = some (.file id))
      (hleads : LeadsToBackup w (goneWith w (expiredIn w now)) p) : w'.disk.at? p = none :=
    (h.cleared hs).at?_eq_none hp (leadsToBackup_iff.mp hleads)
  refine ⟨fun key row => ?_, h.tracker, h.content, h.shed.toSheds, hkept, hgone,
    fun hnames n id hn hp => ?_⟩
  · rw [h.rows, List.take_of_length_le (Nat.le_of_eq (List.length_map _)), getElem?_foldl_erase]
    split <;> simp [*]
  · have hleads := leadsToBackup_backupPath hn hnames (Disk.at?_eq_some.mp hp).1
    exact ⟨fun hnot => hkept _ id hp (mt hleads.mp hnot),
      fun hs hmem => hgone hs _ id hp (hleads.mpr hmem)⟩

/-- After runs that failed, what is still there of what expired is what expires, a run can go
through where nothing is refused, and where one does, all is as after a run that never failed. -/
structure Resumed (sure : Prop) (w : World) (now : UInt64) (w₁ : World) : Prop where
  expired : expiredIn w₁ now = stillIn w₁ (expiredIn w now)
  completes : w.tracker.attached = true → ¬ Unreadable w now →
    ∃ x w₂, Runs (expireHistory now) w₁.calm (.ok x) w₂
  alike : ∀ now₁ x w₂, expiredIn w₁ now₁ = stillIn w₁ (expiredIn w now) →
    (sure → Removing w₁) → Runs (expireHistory now₁) w₁ (.ok x) w₂ →
    ∀ w₀ x₀ w₃, w₀.calm = w.calm → (sure → Removing w₀) →
      Runs (expireHistory now) w₀ (.ok x₀) w₃ → Alike sure w w₂ w₃

theorem Repeated.resumed {w₁ : World} (h : Repeated sure w now w₁)
    (hactive : w.tracker.active = true)
    (hage : w.tracker.options.maxAge.milliseconds < UInt64.size) : Resumed sure w now w₁ := by
  have hunder := h.underway hactive hage
  obtain ⟨n, hn, hrows⟩ := hunder.rows
  refine ⟨?_, fun hattached => hunder.exists_run hattached hage,
    fun now₁ x w₂ hset hsure hrun w₀ x₀ w₃ hcalm hsure₀ hrun₀ => ?_⟩
  · rw [(expiredIn_eq_drop hrows hn hunder.options).1, stillIn_eq_drop hrows]
  · have hfresh : Underway sure w now w₀ := .fresh hcalm
    have hset₀ : expiredIn w₀ now = stillIn w₀ (expiredIn w now) := by
      rw [Underway.stillIn_fresh hcalm, expiredIn, expiredIn, tracker_of_calm hcalm,
        history_of_calm hcalm]
    exact ((hunder.run hactive hage hset hsure hrun).2 x rfl).alike
      ((hfresh.run hactive hage hset₀ hsure₀ hrun₀).2 x₀ rfl)

/-- Expiry changes nothing where the rows cannot be scanned or the one behind those that expired
cannot be read. If it goes through, what expired is gone and nothing else, and nothing happens where
nothing has expired. However often runs fail while the same compactions expire, one can go through
where nothing is refused, and where one does, all is as after a run that never failed. -/
theorem expireHistory_retried (hactive : w.tracker.active = true)
    (hage : w.tracker.options.maxAge.milliseconds < UInt64.size) :
    (∀ r w', (∃ f, w.host.outage 0 .scan = some f) ∨ Unreadable w now →
      Runs (expireHistory now) w r w' → (∃ e, r = .error e) ∧ Asked w w') ∧
    (∀ x w', Runs (expireHistory now) w (.ok x) w' →
      if expiredIn w now = [] then w'.calm = w.calm else Cleaned w now w') ∧
    ∀ sure w₁, Repeated sure w now w₁ → Resumed sure w now w₁ := by
  refine ⟨fun r w' => expireHistory_obscured hactive hage, fun x w' h => ?_,
    fun sure w₁ hrepeated => hrepeated.resumed hactive hage⟩
  have hstart : Underway (Removing w) w now w := .fresh rfl
  cases (hstart.run hactive hage (Underway.stillIn_fresh rfl).symm id h).2 x rfl with
  | none empty same =>
    rw [if_pos empty]
    exact same
  | pruned some done =>
    rw [if_neg some]
    exact done.cleaned

end Lineage.Tracker

/-! ## Expiry that stops between two rows -/

namespace Lineage.Sample

open Tracker (expireHistory expiredIn stillIn goneWith Unreadable Removing Repeated Underway)

/-- Two compactions of one day, and one of a month later. -/
def succession : List Compaction :=
  [named 5 1 "a" "b", named 6 1 "b" "c", named 20 3000000000 "c" "d"]

/-- The inputs of three compactions are backed up. -/
def aging (o : Outage TableOperation IoError) : World where
  host := { fresh.host with
    disk := { nodes := .ofList [(["tracker"], Node.directory),
      (["tracker", "compaction-sst-backup"], Node.directory),
      (["tracker", "compaction-sst-backup", "a.sst"], Node.file 0),
      (["tracker", "compaction-sst-backup", "b.sst"], Node.file 1),
      (["tracker", "compaction-sst-backup", "c.sst"], Node.file 2)] }
    history := .memory (.ofList ((([[1], [2], [3]] : List Bytes).zip
      (succession.map Compaction.encode))))
    outage := o }
  tracker := { tracker with graph := succession.foldl Graph.addCompaction {} }

/-- The second row cannot be deleted. -/
def jammed : Outage TableOperation IoError := fun n op =>
  if n = 2 ∧ op = .delete then some ⟨.other, none⟩ else none

/-- Rows were deleted until one could not be. -/
def halted : World := ((expireHistory 3000000000).run.run (aging jammed)).2

variable {o : Outage TableOperation IoError}

theorem removing_aging : Removing (aging o) := fun _ => rfl

theorem active_aging : (aging o).tracker.active = true := rfl

theorem maxAge_aging : (aging o).tracker.options.maxAge.milliseconds < UInt64.size := by
  have hoptions : (aging o).tracker.options = {} := rfl
  rw [hoptions]
  decide

theorem expireHistory_halted :
    (aging jammed).tracker.active = true ∧
    (aging jammed).tracker.options.maxAge.milliseconds < UInt64.size ∧
    Runs (expireHistory 3000000000) (aging jammed) (.error (.table (.io ⟨.other, none⟩))) halted ∧
    halted.host.history.rows.size = 2 ∧
    ∃ x w₂ x₀ w₃, Runs (expireHistory 3000000000) halted.calm (.ok x) w₂ ∧
      Runs (expireHistory 3000000000) (aging .quiet) (.ok x₀) w₃ ∧
      w₂.host.history.rows = w₃.host.history.rows ∧ w₂.tracker = w₃.tracker ∧
      ∀ q, w₂.disk.node? q = w₃.disk.node? q := by
  obtain ⟨herror, hsize, hagain, hwhole⟩ :
      ((expireHistory 3000000000).run.run (aging jammed)).1 =
        .error (.table (.io ⟨.other, none⟩)) ∧
      halted.host.history.rows.size = 2 ∧
      ((expireHistory 3000000000).run.run halted.calm).1 =
        .ok { compactions := 1, names := ∅, backups := 0 } ∧
      ((expireHistory 3000000000).run.run (aging .quiet)).1 =
        .ok { compactions := 2, names := .ofList ["a", "b"], backups := 2 } := by
    decide +kernel
  have hrun : Runs (expireHistory 3000000000) (aging jammed) _ halted := runs_of_fst herror
  have hfirst : Repeated True (aging jammed) 3000000000 halted :=
    .again .start (Underway.stillIn_fresh rfl).symm (fun _ => removing_aging) hrun
  have hrepeated : Repeated True (aging jammed) 3000000000 halted.calm := .replan hfirst rfl
  obtain ⟨-, -, hretried⟩ :=
    @Tracker.expireHistory_retried (aging jammed) 3000000000 active_aging maxAge_aging
  obtain ⟨hset, -, hends⟩ := hretried True halted.calm hrepeated
  have halike := hends 3000000000 _ _ hset (fun _ _ => rfl) (runs_of_fst hagain)
    (aging .quiet) _ _ rfl (fun _ => removing_aging) (runs_of_fst hwhole)
  exact ⟨active_aging, maxAge_aging, hrun, hsize, _, _, _, _, runs_of_fst hagain,
    runs_of_fst hwhole, halike.rows, halike.tracker, halike.names trivial⟩

/-! ## Expiry that lets be -/

/-- A tracker that is suspended. -/
def dozing : World :=
  { aging .quiet with tracker := { (aging .quiet).tracker with suspended := true } }

/-- No file can be removed. -/
def clinging : World := { aging .quiet with
  host := { (aging .quiet).host with
    disk := { (aging .quiet).host.disk with
      outage := .standing fun op => if op = .remove then some ⟨⟨.other, none⟩, 0⟩ else none } } }

/-- A suspended tracker keeps what expired, and a backup that cannot be removed stays where its file
goes, without an error. -/
theorem expireHistory_dozing :
    (expiredIn dozing 3000000000).map Prod.fst = [[1], [2]] ∧
    Runs (expireHistory 3000000000) dozing (.ok {}) dozing ∧
    "a" ∈ goneWith clinging (expiredIn clinging 3000000000) ∧
    ∃ w', Runs (expireHistory 3000000000) clinging
        (.ok { compactions := 2, names := .ofList ["a", "b"] }) w' ∧
      w'.disk.at? (clinging.tracker.backupPath "a") = some (.file 0) := by
  obtain ⟨hkeys, hgone, hok, hkept⟩ :
      (expiredIn dozing 3000000000).map Prod.fst = [[1], [2]] ∧
      "a" ∈ goneWith clinging (expiredIn clinging 3000000000) ∧
      ((expireHistory 3000000000).run.run clinging).1 =
        .ok { compactions := 2, names := .ofList ["a", "b"] } ∧
      ((expireHistory 3000000000).run.run clinging).2.disk.at? (clinging.tracker.backupPath "a") =
        some (.file 0) := by
    decide +kernel
  exact ⟨hkeys, rfl, hgone, _, runs_of_fst hok, hkept⟩

end Lineage.Sample
