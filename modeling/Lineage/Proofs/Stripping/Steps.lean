import Lineage.Proofs.Backups

/-!
# The steps of stripping

What a step of stripping can do is said once, and whatever holds of a run of it is read off that:
what is done about one input (`stripInputs_steps`), how it goes with the compaction that has a key
(`strips_of_stripCompaction`), and what becomes of the head of the queue (`stripQueued_steps`).
-/

namespace Lineage

/-- The keys of the compactions whose inputs are still to be stripped. -/
def World.queue (w : World) : List Bytes := w.tracker.queue

/-- What is left alone while backups are stripped: the queue, and the history with the failures to
come of its table. -/
def World.ledger (w : World) : List Bytes × Table × Outage TableOperation IoError :=
  (w.queue, w.host.history, w.host.outage)

namespace Tracker

open World (onDisk onHost update)

variable {w w₁ w' : World} {key : Bytes} {run : StripRun} {left : Nat} {i i' : FileInfo}
  {rest : List FileInfo}

/-! ## One input -/

/-- What is done about an input when it goes through. -/
inductive Treated (i : FileInfo) (w : World) : FileInfo → World → Prop
  /-- It was stripped before. -/
  | before (stripped : i.stripped = true) : Treated i w i w
  /-- Its backup makes way for the stripped copy. -/
  | copied {w₁ : World} (due : i.stripped = false) (backed : Backed w i.name)
      (ran : Runs (stripBackup (w.tracker.backupPath i.name)) w (.ok ()) w₁) :
      Treated i w { i with stripped := true } { w₁ with tracker := w₁.tracker.countStripped }
  /-- It has no backup. -/
  | skipped (due : i.stripped = false) (bare : ¬ Backed w i.name) :
      Treated i w i { w with tracker := w.tracker.countSkipped }

/-- The first input is treated, and the others after it; or its backup cannot be stripped, and they
are left. -/
theorem stripInputs_steps {r : Except UpkeepError (List FileInfo × StripRun)}
    (h : Runs (stripInputs run (i :: rest)) w r w') :
    (∃ i' w₁ run₁ r₁, Treated i w i' w₁ ∧ run₁.compactions = run.compactions ∧
      Runs (stripInputs run₁ rest) w₁ r₁ w' ∧ r = r₁.map fun x => (i' :: x.1, x.2)) ∨
    i.stripped = false ∧ Backed w i.name ∧
      ∃ e, Runs (stripBackup (w.tracker.backupPath i.name)) w (.error e) w' ∧ r = .error e := by
  have hmore {run₁ : StripRun} {w₁ : World} {i' : FileInfo} (hfirst : Treated i w i' w₁)
      (h : Runs (do
        let x ← stripInputs run₁ rest
        return (i' :: x.1, x.2)) w₁ r w')
      (hrun : run₁.compactions = run.compactions) :
      ∃ i' w₁ run₁ r₁, Treated i w i' w₁ ∧ run₁.compactions = run.compactions ∧
        Runs (stripInputs run₁ rest) w₁ r₁ w' ∧ r = r₁.map fun x => (i' :: x.1, x.2) := by
    rcases runs_bind.mp h with ⟨x, w₂, hrest, h⟩ | ⟨e, hrest, rfl⟩
    · obtain ⟨rfl, rfl⟩ := runs_pure.mp h
      exact ⟨i', w₁, run₁, _, hfirst, hrun, hrest, rfl⟩
    · exact ⟨i', w₁, run₁, _, hfirst, hrun, hrest, rfl⟩
  rw [stripInputs, runs_get_bind] at h
  dsimp only at h
  split at h
  · rename_i hstripped
    exact .inl (hmore (.before hstripped) h rfl)
  · rename_i hdue
    rw [Bool.not_eq_true] at hdue
    split at h
    · rename_i hpresent
      have hb : Backed w i.name := by rwa [Backed, ← Disk.present_eq]
      rcases runs_bind.mp h with ⟨_, w₁, hstrip, h⟩ | ⟨e, hstrip, rfl⟩
      · rw [World.runs_update_bind] at h
        exact .inl (hmore (.copied hdue hb hstrip) h rfl)
      · exact .inr ⟨hdue, hb, e, hstrip, rfl⟩
    · rename_i hpresent
      have hb : ¬ Backed w i.name := by rwa [Backed, ← Disk.present_eq]
      rw [World.runs_update_bind] at h
      exact .inl (hmore (.skipped hdue hb) h rfl)

theorem fixes_stripInputs {run : StripRun} {is : List FileInfo} :
    Moves (Fixes World.ledger) (stripInputs run is) := by
  have hdisk {ε α : Type} {wrap : ε → UpkeepError} {a : Disk.Action ε α} :
      Moves (Fixes World.ledger) (onDisk wrap a) := by
    intro w r w' h
    obtain ⟨_, _, _, -, rfl⟩ := World.runs_onDisk.mp h
    rfl
  have hbackup {p : Path} : Moves (Fixes World.ledger) (stripBackup p) :=
    moves_bind moves_get fun _ => moves_bind (moves_discard hdisk) fun _ =>
      moves_bind (moves_discard hdisk) fun _ => moves_bind hdisk fun _ => hdisk
  have hcount {f : Tracker → Tracker} (hf : ∀ t, (f t).queue = t.queue) :
      Moves (Fixes World.ledger) (update f : World.Action UpkeepError Unit) := by
    intro w r w' h
    rw [(World.runs_update.mp h).2]
    exact congrArg (·, w.host.history, w.host.outage) (hf w.tracker)
  induction is generalizing run with
  | nil => exact moves_pure
  | cons i rest ih =>
    rw [stripInputs]
    refine moves_bind moves_get fun w => ?_
    dsimp only
    split
    · exact moves_bind ih fun _ => moves_pure
    · split
      · exact moves_bind hbackup fun _ => moves_bind (hcount fun _ => rfl) fun _ =>
          moves_bind ih fun _ => moves_pure
      · exact moves_bind (hcount fun _ => rfl) fun _ => moves_bind ih fun _ => moves_pure

/-! ## One compaction -/

/-- How it goes to strip the inputs of the compaction with a key. -/
inductive Strips (run : StripRun) (key : Bytes) (w : World) :
    Except UpkeepError StripRun → World → Prop
  /-- The row is not to be had, or cannot be read. -/
  | unread {e : UpkeepError}
      (cause : (∃ f, w.host.outage 0 .get = some f) ∨
        ∃ row e, w.host.history.rows[key]? = some row ∧ History.readRow row = .error e) :
      Strips run key w (.error e) w.later
  /-- There is no row any more. -/
  | gone (none : w.host.history.rows[key]? = none) : Strips run key w (.ok run) w.later
  /-- The inputs cannot be stripped. -/
  | stuck {row : Bytes} {c : Compaction} {e : UpkeepError} {w' : World}
      (found : w.host.history.rows[key]? = some row) (read : History.readRow row = .ok c)
      (ran : Runs (stripInputs run c.inputs) w.later (.error e) w') : Strips run key w (.error e) w'
  /-- There is nothing to be noted. -/
  | same {row : Bytes} {c : Compaction} {run' : StripRun} {w' : World}
      (found : w.host.history.rows[key]? = some row) (read : History.readRow row = .ok c)
      (ran : Runs (stripInputs run c.inputs) w.later (.ok (c.inputs, run')) w') :
      Strips run key w (.ok run') w'
  /-- The row is not to be had again. -/
  | unsaved {row : Bytes} {c : Compaction} {inputs : List FileInfo} {run' : StripRun}
      {w₁ : World} {e : UpkeepError} (found : w.host.history.rows[key]? = some row)
      (read : History.readRow row = .ok c)
      (ran : Runs (stripInputs run c.inputs) w.later (.ok (inputs, run')) w₁)
      (cause : ∃ f, w₁.host.outage 0 .get = some f) : Strips run key w (.error e) w₁.later
  /-- The row is to be put, which may fail. -/
  | put {row : Bytes} {c : Compaction} {inputs : List FileInfo} {run' : StripRun}
      {w₁ w' : World} {r : Except UpkeepError Unit} (found : w.host.history.rows[key]? = some row)
      (read : History.readRow row = .ok c)
      (ran : Runs (stripInputs run c.inputs) w.later (.ok (inputs, run')) w₁)
      (differ : inputs ≠ c.inputs)
      (ran' : Runs (onHost .table (Host.putRow key (Compaction.encode { c with inputs })))
        w₁.later r w') : Strips run key w (r.map fun _ => run') w'

theorem strips_of_stripCompaction {r : Except UpkeepError StripRun}
    (h : Runs (stripCompaction run key) w r w') : Strips run key w r w' := by
  rw [stripCompaction] at h
  rcases runs_bind.mp h with ⟨row?, w₁, hget, h₁⟩ | ⟨e, hget, rfl⟩
  swap
  · obtain ⟨f, hf, -, rfl⟩ := World.runs_getRow_error.mp hget
    exact .unread (.inl ⟨f, hf⟩)
  obtain ⟨-, hrow, rfl⟩ := World.runs_getRow_ok.mp hget
  cases row? with
  | none =>
    obtain ⟨rfl, rfl⟩ := runs_pure.mp h₁
    exact .gone hrow.symm
  | some row =>
    dsimp only at h₁
    rcases runs_bind.mp h₁ with ⟨c, w₁, hread, h₂⟩ | ⟨e, hread, rfl⟩
    swap
    · obtain ⟨he, rfl⟩ := runs_ofExcept.mp hread
      cases hc : History.readRow row with
      | ok c =>
        rw [hc] at he
        cases he
      | error e' => exact .unread (.inr ⟨row, e', hrow.symm, hc⟩)
    obtain ⟨hdecoded, rfl⟩ := runs_ofExcept.mp hread
    have hc := except_mapError_eq_ok.mp hdecoded.symm
    rcases runs_bind.mp h₂ with ⟨⟨inputs, run'⟩, w₂, hstrip, h₃⟩ | ⟨e, hstrip, rfl⟩
    swap
    · exact .stuck hrow.symm hc hstrip
    dsimp only at h₃
    split at h₃
    · rename_i hne
      rcases runs_bind.mp h₃ with ⟨again, w₃, hagain, h₄⟩ | ⟨e, hagain, rfl⟩
      swap
      · obtain ⟨f, hf, -, rfl⟩ := World.runs_getRow_error.mp hagain
        exact .unsaved hrow.symm hc hstrip ⟨f, hf⟩
      obtain ⟨-, rfl, rfl⟩ := World.runs_getRow_ok.mp hagain
      -- The row that was there is there still.
      have hhistory : w₂.host.history = w.host.history :=
        congrArg (fun l => l.2.1) (fixes_stripInputs _ _ _ hstrip)
      rw [hhistory, ← hrow] at h₄
      rcases runs_bind.mp h₄ with ⟨_, w₄, hput, h₅⟩ | ⟨e, hput, rfl⟩
      · obtain ⟨rfl, rfl⟩ := runs_pure.mp h₅
        exact .put hrow.symm hc hstrip hne hput
      · exact .put hrow.symm hc hstrip hne hput
    · rename_i heq
      obtain ⟨rfl, rfl⟩ := runs_pure.mp h₃
      rw [not_not.mp heq] at hstrip
      exact .same hrow.symm hc hstrip

/-! ## Queues -/

theorem runs_stripQueued_nil {r : Except UpkeepError StripRun} (hq : w.queue = []) :
    Runs (stripQueued left run) w r w' ↔ r = .ok run ∧ w' = w := by
  cases left with
  | zero => exact runs_pure
  | succ left =>
    rw [World.queue] at hq
    rw [stripQueued, runs_get_bind, hq]
    exact runs_pure

/-- The head of the queue stays if it fails, and else it makes way for the others. -/
theorem stripQueued_steps {r : Except UpkeepError StripRun} {rest : List Bytes}
    (hq : w.queue = key :: rest) (h : Runs (stripQueued (left + 1) run) w r w') :
    (∃ e w₁, Runs (stripCompaction run key) w (.error e) w₁ ∧ r = .error e ∧
      w' = { w₁ with tracker := w₁.tracker.countFailure }) ∨
    ∃ run₁ w₁, Runs (stripCompaction run key) w (.ok run₁) w₁ ∧
      Runs (stripQueued left { run₁ with compactions := run₁.compactions + 1 })
        { w₁ with tracker := { w₁.tracker with queue := rest } } r w' := by
  rw [World.queue] at hq
  have hthrow {e : UpkeepError} {w₁ w₂ : World} {r : Except UpkeepError StripRun} :
      Runs (update countFailure >>= fun _ => throw e) w₁ r w₂ ↔
        r = .error e ∧ w₂ = { w₁ with tracker := w₁.tracker.countFailure } :=
    runs_throw
  rw [stripQueued, runs_get_bind, hq] at h
  dsimp only at h
  rcases runs_bind.mp h with ⟨run₁, w₁, hfirst, h⟩ | ⟨e, hfirst, rfl⟩
  · rcases runs_tryCatch.mp hfirst with ⟨run₂, hstrip, he⟩ | ⟨e, w₂, -, hfailed⟩
    · cases he
      exact .inr ⟨run₁, w₁, hstrip, h⟩
    · cases (hthrow.mp hfailed).1
  · rcases runs_tryCatch.mp hfirst with ⟨run₂, -, he⟩ | ⟨e', w₂, hstrip, hfailed⟩
    · cases he
    · obtain ⟨he, rfl⟩ := hthrow.mp hfailed
      cases he
      exact .inl ⟨e, w₂, hstrip, rfl, rfl⟩

theorem runs_stripBackups_iff {r : Except UpkeepError StripRun} : Runs stripBackups w r w' ↔
    if w.tracker.active && w.tracker.options.stripValues then
      if w.tracker.attached then
        Runs (stripQueued w.tracker.options.stripBatch {})
          { w with tracker := w.tracker.countBatch } r w'
      else r = .error .notAttached ∧ w' = w
    else r = .ok {} ∧ w' = w := by
  rw [stripBackups, runs_get_bind]
  dsimp only
  split
  · split
    · exact World.runs_update_bind
    · exact runs_throw
  · exact runs_pure

end Tracker

end Lineage
