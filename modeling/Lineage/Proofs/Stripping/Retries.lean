import Lineage.Proofs.Stripping.Rounds

/-!
# Rounds of stripping that fail

A round that fails leaves a world from which the next one goes on (`Toward.retried`). Where all is
handled, rows and backups are determined by the world at the start (`Toward.agree`): it does not
matter how often rounds failed on the way.
-/

namespace Lineage

namespace Tracker

variable {w w₀ w₁ w₂ w' : World} {m n : String} {b : Bytes} {P : String → Prop}
  {saved keys : List Bytes} {run : StripRun}

/-! ## Plans of failures -/

theorem queue_of_calm (h : w₁.calm = w.calm) : w₁.queue = w.queue :=
  congrArg Tracker.queue (tracker_of_calm h)

/-- Which operations are refused is no matter of the backups. -/
theorem Copying.of_calm (h : w₁.calm = w.calm) : Copying P w w₁ := by
  have hsnapshots := congrArg (fun w => w.host.snapshots) h
  have hdisk := congrArg World.disk h
  exact ⟨by rw [tracker_of_calm h], hsnapshots, by rw [history_of_calm h], .of_fixes hdisk,
    fun _ => .inl (Disk.at?_of_calm hdisk)⟩

theorem Toward.replan (h : Toward w saved keys w₁) (hcalm : w₂.calm = w₁.calm) :
    Toward w saved keys w₂ :=
  h.copy (.of_calm hcalm) (by rw [history_of_calm hcalm])

/-! ## Repeated rounds -/

/-- Failing rounds were repeated, each of them under failures of its own. -/
inductive Retried (w : World) : World → Prop
  | start : Retried w w
  | replan {w₁ w₂ : World} (before : Retried w w₁) (same : w₂.calm = w₁.calm) : Retried w w₂
  | again {w₁ w₂ : World} {e : UpkeepError} (before : Retried w w₁)
      (failed : Runs stripBackups w₁ (.error e) w₂) : Retried w w₂

/-- What is left of the queue was not handled. -/
theorem left_of_queue {left : Nat} (hqueue : w.queue = saved ++ w₁.queue)
    (hnodup : w.queue.Nodup) : ∀ key ∈ w₁.queue.take left, key ∈ w.queue ∧ key ∉ saved := by
  intro key hkey
  have hleft := List.mem_of_mem_take hkey
  have hmem : key ∈ w.queue := hqueue ▸ List.mem_append_right _ hleft
  rw [hqueue] at hnodup
  exact ⟨hmem, fun hsaved => (List.nodup_append.mp hnodup).2.2 key hsaved key hleft rfl⟩

/-- However often rounds fail, they go on where the one before them stopped. -/
theorem Toward.retried (h : Toward w saved w.queue w₁) (hqueue : w.queue = saved ++ w₁.queue)
    (hnodup : w.queue.Nodup) (hr : Retried w₁ w₂) :
    ∃ saved, w.queue = saved ++ w₂.queue ∧ Toward w saved w.queue w₂ := by
  induction hr with
  | start => exact ⟨saved, hqueue, h⟩
  | replan before same ih =>
    obtain ⟨saved, hqueue, h⟩ := ih
    exact ⟨saved, hqueue.trans (congrArg (saved ++ ·) (queue_of_calm same).symm), h.replan same⟩
  | @again w₁ w₂ e before failed ih =>
    obtain ⟨saved, hqueue, h⟩ := ih
    have hsteps := runs_stripBackups_iff.mp failed
    split at hsteps
    · split at hsteps
      · have hleft : w₁.queue.Nodup := by
          rw [hqueue] at hnodup
          exact (List.nodup_append.mp hnodup).2.1
        obtain ⟨herror, -⟩ := h.stripBackups hleft (left_of_queue hqueue hnodup) ‹_› ‹_› failed
        obtain ⟨done, key, rest, hsplit, hrest, -, htoward⟩ := herror e rfl
        refine ⟨saved ++ done, ?_, htoward⟩
        rw [hqueue, hsplit, hrest, List.append_assoc]
      · rw [hsteps.2]
        exact ⟨saved, hqueue, h⟩
    · cases hsteps.1

/-- A round that goes through handles what is left. -/
theorem Toward.finish (h : Toward w saved w.queue w₁) (hqueue : w.queue = saved ++ w₁.queue)
    (hnodup : w.queue.Nodup)
    (hbatch : w.queue.length ≤ w.tracker.options.stripBatch)
    (hon : (w.tracker.active && w.tracker.options.stripValues) = true)
    (hr : Runs Tracker.stripBackups w₁ (.ok run) w₂) :
    w.tracker.attached = true ∧ Toward w w.queue w.queue w₂ := by
  have hon₁ : (w₁.tracker.active && w₁.tracker.options.stripValues) = true := by
    rw [h.copying.active, h.copying.options, hon]
  have hattached₁ : w₁.tracker.attached = true := by
    have hsteps := runs_stripBackups_iff.mp hr
    rw [if_pos hon₁] at hsteps
    by_contra hnot
    rw [if_neg hnot] at hsteps
    cases hsteps.1
  have hnodup₁ : w₁.queue.Nodup := by
    rw [hqueue] at hnodup
    exact (List.nodup_append.mp hnodup).2.1
  obtain ⟨-, hok⟩ :=
    h.stripBackups hnodup₁ (left_of_queue hqueue hnodup) hon₁ hattached₁ hr
  obtain ⟨-, -, htoward⟩ := hok run rfl
  have hall : w₁.queue.take w₁.tracker.options.stripBatch = w₁.queue := by
    refine List.take_of_length_le (Nat.le_trans ?_ (h.copying.options ▸ hbatch))
    rw [hqueue, List.length_append]
    exact Nat.le_add_left _ _
  rw [hall, ← hqueue] at htoward
  exact ⟨h.copying.attached.symm.trans hattached₁, htoward⟩

/-- What is at the place of a backup that was due has its bytes, by whatever name. -/
theorem Toward.bytesAt_of_due {b₁ : Bytes} (h : Toward w saved keys w₁) (hm : Due w keys m)
    (hs : (w.tracker.backupPath n).spot = (w.tracker.backupPath m).spot)
    (hb : w₁.disk.bytesAt (w.tracker.backupPath m) = .ok b₁) :
    w₁.disk.bytesAt (w.tracker.backupPath n) = .ok b ↔ Backed w n ∧ b₁ = b := by
  have hsame (hn : Backed w n) :
      w₁.disk.at? (w.tracker.backupPath n) = w₁.disk.at? (w.tracker.backupPath m) :=
    Disk.at?_eq_of_spot (fun q => h.copying.disk.directory.mpr) hn hm.1 hs
  constructor
  · intro hbytes
    have hn : Backed w n := by
      obtain ⟨id, hat, -⟩ := Disk.bytesAt_eq_ok.mp hbytes
      rw [← h.copying.backed, Backed, h.copying.backupPath, hat]
      rfl
    rw [Disk.bytesAt_congr (hsame hn), hb] at hbytes
    exact ⟨hn, Except.ok.inj hbytes⟩
  · rintro ⟨hn, rfl⟩
    exact (Disk.bytesAt_congr (hsame hn)).mpr hb

/-- Two worlds have the same rows, and the same bytes in all backups of a third. -/
structure SameBackups (w w₂ w₃ : World) : Prop where
  rows : w₂.host.history.rows = w₃.host.history.rows
  bytes : ∀ n b, w₂.disk.bytesAt (w.tracker.backupPath n) = .ok b ↔
    w₃.disk.bytesAt (w.tracker.backupPath n) = .ok b

/-- Where all is handled, rows and backups are determined. -/
theorem Toward.agree (h : Toward w keys keys w₁) (h' : Toward w keys keys w₂) :
    SameBackups w w₁ w₂ where
  rows := by
    ext1 k
    rw [h.rows, h'.rows]
  bytes n b := by
    by_cases hdue : ∃ m, Due w keys m ∧
      (w.tracker.backupPath n).spot = (w.tracker.backupPath m).spot
    · obtain ⟨m, hm, hs⟩ := hdue
      obtain ⟨-, b₁, hs₁, hb₁⟩ := h.copied m hm
      obtain ⟨-, b₂, hs₂, hb₂⟩ := h'.copied m hm
      rw [h.bytesAt_of_due hm hs hb₁, h'.bytesAt_of_due hm hs hb₂, hs₁.unique hs₂]
    · exact ((h.intact hdue).2 b).trans ((h'.intact hdue).2 b).symm

/-- A round failed at a key: those ahead of it are off the queue, and it is in front of those behind
it. The rows of all keys but those ahead are as they were, and each backup is what it was or the
whole stripped copy of that. -/
structure StoppedAt (key : Bytes) (e : UpkeepError) (w w' : World) : Prop where
  queues : ∃ done rest, w.queue = done ++ key :: rest ∧ w'.queue = key :: rest ∧ key ∉ done ∧
    ∀ k : Bytes, k ∉ done → w'.host.history.rows[k]? = w.host.history.rows[k]?
  failed : FailedAt key e w'
  backups : ∀ n, Intact w w' n ∨ Replaced w w' n ∧ Emptied w w' n

/-- A round that fails, for whatever reason, stops at a key, or before all of them where nothing is
attached. If rounds are repeated until one goes through, rows and backups are those after one round
that never failed, if the queue is not too long for one; and without failures there is such a round.
The backup directory has to be there: making it could let further names lead to backups. -/
theorem stripBackups_retried {w w' : World} {e : UpkeepError} (hw : Reached w) (ho : Orderly w)
    (hdir : w.disk.isDirectory w.tracker.backupDir = true)
    (h : Runs stripBackups w (.error e) w') :
    (w.tracker.attached = false ∧ w' = w ∨ ∃ key, StoppedAt key e w w') ∧
    ∀ w₁ run w₂, Retried w' w₁ → w.queue.length ≤ w.tracker.options.stripBatch →
      Runs stripBackups w₁ (.ok run) w₂ →
      (∃ run₀ w₃, Runs stripBackups w.calm (.ok run₀) w₃) ∧
      ∀ w₀ run₀ w₃, w₀.calm = w.calm → Runs stripBackups w₀ (.ok run₀) w₃ →
        SameBackups w w₂ w₃ := by
  have hnodup := hw.nodup
  have hon : (w.tracker.active && w.tracker.options.stripValues) = true := by
    by_contra hnot
    rw [runs_stripBackups_iff, if_neg hnot] at h
    cases h.1
  have hroot : Rooted w := Disk.walk_of_directory (Disk.isDirectory_iff.mp hdir)
  have hstart : Toward w [] w.queue w := .start ho fun _ _ => hroot
  constructor
  · by_cases hattached : w.tracker.attached = true
    · obtain ⟨herror, -⟩ :=
        hstart.stripBackups hnodup (left_of_queue rfl hnodup) hon hattached h
      obtain ⟨done, key, rest, hsplit, hrest, hfailed, htoward⟩ := herror e rfl
      have hnew : key ∉ done := by
        rw [hsplit] at hnodup
        exact fun hmem => (List.nodup_append.mp hnodup).2.2 key hmem key List.mem_cons_self rfl
      refine .inr ⟨key, ⟨done, rest, hsplit, hrest, hnew, fun k hk => ?_⟩, hfailed, fun n => ?_⟩
      · rw [htoward.rows k]
        exact if_neg hk
      · rcases htoward.copying.copies n with hsame | ⟨-, hr⟩
        · exact .inl ⟨hsame, fun b => htoward.copying.bytes ho hsame⟩
        · exact .inr ⟨hr, emptied_of_replaced hr⟩
    · have hsteps := runs_stripBackups_iff.mp h
      rw [if_pos hon, if_neg hattached] at hsteps
      exact .inl ⟨Bool.eq_false_iff.mpr hattached, hsteps.2⟩
  · intro w₁ run w₂ hretried hbatch hrun
    obtain ⟨saved', hqueue', h'⟩ := hstart.retried rfl hnodup (.again .start h)
    obtain ⟨saved, hqueue, h₁⟩ := h'.retried hqueue' hnodup hretried
    obtain ⟨hattached, h₂⟩ := h₁.finish hqueue hnodup hbatch hon hrun
    have hfeas : Feasible w w.queue := by
      refine ⟨h₂.read, fun n hn => ?_⟩
      obtain ⟨ha, b, hs, -⟩ := h₂.copied n hn
      exact ⟨ha, b, hs⟩
    refine ⟨?_, fun w₀ run₀ w₃ hcalm hrun₀ => ?_⟩
    · have hcalm : Toward w [] w.queue w.calm := hstart.replan rfl
      exact hcalm.exists_stripBackups quiet_calm hfeas hnodup
        (fun key hk => List.mem_of_mem_take hk) hon hattached
    · have hqueue₀ : w.queue = [] ++ w₀.queue := (queue_of_calm hcalm).symm
      exact h₂.agree ((hstart.replan hcalm).finish hqueue₀ hnodup hbatch hon hrun₀).2

end Tracker

end Lineage

/-! ## A round that is done again -/

namespace Lineage.Sample

open World (onHost)
open Tracker (Intact Replaced Emptied Rooted Admits Backed StripsTo Strips StripRun UpkeepError
  Copying Retried Toward marked stripBackups stripCompaction stripInputs)

/-- No row can be put. -/
def unwritable : TableOperation → Option IoError
  | .put => some ⟨.other, none⟩
  | _ => none

variable {f : TableOperation → Option IoError}

theorem backed_laden : Backed (laden f) "x" :=
  Tracker.backed_of_stripsTo stripsTo_laden.choose_spec

theorem stripInputs_laden {run : StripRun} {w w' : World}
    {r : Except UpkeepError (List FileInfo × StripRun)} (hw : Copying (fun _ => True) (laden f) w)
    (hq : w.disk.outage = .quiet) (h : Runs (stripInputs run stripping.inputs) w r w') :
    (∃ run', r = .ok ([{ name := "x", stripped := true }], run')) ∧
      Copying (fun _ => True) (laden f) w' ∧ Replaced (laden f) w' "x" := by
  have ho := hw.orderly orderly_laden
  have hroot := hw.rooted rooted_laden
  have hbacked : Backed w "x" := hw.backed.mpr backed_laden
  obtain ⟨b, hb⟩ := stripsTo_laden (f := f)
  obtain ⟨⟨⟨is, run'⟩, rfl⟩, -⟩ := Tracker.stripInputs_quiet ho hq (fun i hi _ _ => by
    cases List.mem_singleton.mp hi
    exact ⟨hroot, hw.admits.mpr admits_laden, b, (hw.stripsTo orderly_laden).mpr hb⟩) h
  obtain ⟨hcopy, hall⟩ := Tracker.copying_stripInputs (P := fun _ => True) ho
    (fun _ _ _ _ => ⟨hroot, trivial⟩) h
  obtain ⟨rfl, -, hreplaced⟩ := hall is run' rfl
  have hmarked : marked w { name := "x" } = { name := "x", stripped := true } :=
    Tracker.marked_of_backed hbacked
  obtain ⟨-, hx⟩ := hreplaced { name := "x" } List.mem_cons_self rfl hbacked
  exact ⟨⟨run', congrArg (fun i => Except.ok ([i], run')) hmarked⟩, hw.trans hcopy orderly_laden,
    hw.replaced orderly_laden hx⟩

/-- The row cannot be put, but its backup is stripped by then. -/
theorem replaced_of_stripCompaction {run : StripRun} {r : Except UpkeepError StripRun}
    {w w' : World} (hw : Copying (fun _ => True) (laden unwritable) w)
    (hledger : World.ledger w = World.ledger (laden unwritable)) (hq : w.disk.outage = .quiet)
    (h : Runs (stripCompaction run stripping.key) w r w') :
    (∃ e, r = .error e) ∧ Replaced (laden unwritable) w' "x" := by
  have hhistory : w.host.history = (laden unwritable).host.history :=
    congrArg (fun l => l.2.1) hledger
  have houtage : w.host.outage = .standing unwritable := congrArg (fun l => l.2.2) hledger
  have hrow : w.host.history.rows[stripping.key]? = some stripping.encode := by
    rw [hhistory]
    exact Std.ExtTreeMap.getElem?_insert_self
  have hgot {row : Bytes} (hfound : w.host.history.rows[stripping.key]? = some row) :
      History.readRow row = .ok stripping := readRow_laden (hhistory ▸ hfound)
  have hinputs {row : Bytes} {c : Compaction} {r : Except UpkeepError (List FileInfo × StripRun)}
      {w₁ : World} (hfound : w.host.history.rows[stripping.key]? = some row)
      (hc : History.readRow row = .ok c) (hr : Runs (stripInputs run c.inputs) w.later r w₁) :
      c = stripping ∧ (∃ run', r = .ok ([{ name := "x", stripped := true }], run')) ∧
        w₁.host.outage = .standing unwritable ∧ Copying (fun _ => True) (laden unwritable) w₁ ∧
        Replaced (laden unwritable) w₁ "x" := by
    cases hc.symm.trans (hgot hfound)
    obtain ⟨hok, hcopy, hx⟩ := stripInputs_laden (hw.trans .later orderly_laden) hq hr
    have houtage₁ : w₁.host.outage = w.later.host.outage :=
      congrArg (fun l => l.2.2) (Tracker.fixes_stripInputs _ _ _ hr)
    exact ⟨rfl, hok, houtage₁.trans (congrArg Outage.later houtage), hcopy, hx⟩
  cases Tracker.strips_of_stripCompaction h with
  | unread cause =>
    rcases cause with ⟨f, hf⟩ | ⟨row, e, hfound, he⟩
    · rw [houtage] at hf
      cases hf
    · cases he.symm.trans (hgot hfound)
  | gone none => cases hrow.symm.trans none
  | stuck found read ran =>
    obtain ⟨-, ⟨run', hok⟩, -⟩ := hinputs found read ran
    cases hok
  | same found read ran =>
    obtain ⟨rfl, ⟨run', hok⟩, -⟩ := hinputs found read ran
    cases hok
  | unsaved found read ran cause =>
    obtain ⟨-, -, houtage₁, -⟩ := hinputs found read ran
    obtain ⟨f, hf⟩ := cause
    rw [houtage₁] at hf
    cases hf
  | put found read ran differ ran' =>
    obtain ⟨rfl, -, houtage₁, hcopy, hx⟩ := hinputs found read ran
    rename_i w₁ r
    cases r with
    | ok u =>
      obtain ⟨host, hput, -⟩ := World.runs_onHost_ok.mp ran'
      have hf : w₁.host.outage.later 0 .put = none := (Host.runs_changeHistory_ok.mp hput).1
      rw [houtage₁] at hf
      cases hf
    | error e =>
      have hsaved : Copying (fun _ => True) w₁.later w' := Tracker.copying_putRow ran'
      refine ⟨⟨e, rfl⟩, hcopy.still_replaced (Copying.later.trans hsaved ?_) orderly_laden hx⟩
      exact hcopy.orderly orderly_laden

theorem fails_unwritable : ∃ e w', Runs stripBackups (laden unwritable) (.error e) w' ∧
    Replaced (laden unwritable) w' "x" := by
  have hon : ((laden unwritable).tracker.active &&
    (laden unwritable).tracker.options.stripValues) = true := rfl
  have hattached : (laden unwritable).tracker.attached = true := rfl
  have hstart : Copying (fun _ => True) (laden unwritable)
      { laden unwritable with tracker := (laden unwritable).tracker.countBatch } :=
    .of_disk rfl rfl rfl rfl
  have hends {r : Except UpkeepError StripRun} {w' : World}
      (h : Runs stripBackups (laden unwritable) r w') :
      (∃ e, r = .error e) ∧ Replaced (laden unwritable) w' "x" := by
    rw [Tracker.runs_stripBackups_iff, if_pos hon, if_pos hattached] at h
    rcases Tracker.stripQueued_steps rfl h with ⟨e, w₁, hstrip, rfl, rfl⟩ | ⟨run, w₁, hstrip, -⟩
    · exact ⟨⟨e, rfl⟩, (replaced_of_stripCompaction hstart rfl rfl hstrip).2⟩
    · obtain ⟨⟨e, he⟩, -⟩ := replaced_of_stripCompaction hstart rfl rfl hstrip
      cases he
  obtain ⟨⟨e, he⟩, hx⟩ := hends (runs_of_fst rfl)
  exact ⟨e, _, runs_of_fst he, hx⟩

/-- The row cannot be put, and the backup is stripped by then. Once it can, the round is done again
as if it had never failed. -/
theorem stripBackups_unwritable : ∃ e w', Runs stripBackups (laden unwritable) (.error e) w' ∧
    w'.queue = [stripping.key] ∧
    w'.host.history.rows[stripping.key]? = some stripping.encode ∧
    Replaced (laden unwritable) w' "x" ∧ ∃ run w₂ run₀ w₃,
      Runs stripBackups w'.calm (.ok run) w₂ ∧
      Runs stripBackups (laden fun _ => none) (.ok run₀) w₃ ∧
      w₂.host.history.rows = w₃.host.history.rows ∧ ∀ n b,
        w₂.disk.bytesAt (tracker.backupPath n) = .ok b ↔
          w₃.disk.bytesAt (tracker.backupPath n) = .ok b := by
  obtain ⟨e, w', hfails, hx⟩ := fails_unwritable
  have hdir : backedUp.isDirectory tracker.backupDir = true := by decide +kernel
  obtain ⟨hleft, hagain⟩ :=
    Tracker.stripBackups_retried reached_laden orderly_laden hdir hfails
  rcases hleft with ⟨hattached, -⟩ | ⟨key, hstopped⟩
  · cases hattached
  obtain ⟨done, rest, hsplit, hqueue, -, hrows⟩ := hstopped.queues
  have hone : done ++ key :: rest = [stripping.key] := hsplit.symm
  obtain ⟨rfl, hkey⟩ | ⟨-, hkey⟩ := List.append_eq_singleton_iff.mp hone
  swap
  · cases hkey
  cases hkey
  -- The round is done again from where it failed, with nothing refused.
  obtain ⟨saved, hsaved, htoward⟩ :=
    toward_laden.retried rfl reached_laden.nodup (.again .start hfails)
  rw [hqueue] at hsaved
  cases List.self_eq_append_left.mp hsaved
  have hcalm : Toward (laden unwritable) [] (laden unwritable).queue w'.calm := htoward.replan rfl
  have hqueue' : w'.calm.queue = (laden unwritable).queue := hqueue
  obtain ⟨run, w₂, hrun⟩ := hcalm.exists_stripBackups Tracker.quiet_calm feasible_laden
    (hqueue' ▸ reached_laden.nodup) (fun key hk => hqueue' ▸ List.mem_of_mem_take hk)
    (by rw [hcalm.copying.active, hcalm.copying.options]; rfl)
    (by rw [hcalm.copying.attached]; rfl)
  have hbatch : (laden unwritable).queue.length ≤
    (laden unwritable).tracker.options.stripBatch := Nat.le_of_ble_eq_true rfl
  obtain ⟨⟨run₀, w₃, hrun₀⟩, hends⟩ := hagain w'.calm run w₂ (.replan .start rfl) hbatch hrun
  have hsame := hends (laden fun _ => none) run₀ w₃ rfl hrun₀
  refine ⟨e, w', hfails, hqueue, ?_, hx, run, w₂, run₀, w₃, hrun, hrun₀, hsame.rows, hsame.bytes⟩
  rw [hrows _ List.not_mem_nil]
  exact Std.ExtTreeMap.getElem?_insert_self

end Lineage.Sample
