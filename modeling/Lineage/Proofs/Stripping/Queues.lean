import Lineage.Proofs.Confinement
import Lineage.Proofs.Stripping.Inputs

/-!
# Stripping what is queued

In every world that is reached a key is in the queue once (`Reached.nodup`). What handling one may
come to is listed in `Strips`. In between, `Toward` holds of a world: the rows of what was handled
tell of the backups that are stripped, while of what is left some may be stripped too, and no row
tells it. One key more keeps that, however it ends (`Toward.strips`), and so do any number of them
(`Toward.stripQueued`).
-/

namespace Lineage.Tracker

open World (onDisk onHost update)

variable {w w₀ w₁ w' : World} {m n : String} {t : Tracker} {key row : Bytes} {c : Compaction}
  {keys saved : List Bytes} {run : StripRun} {left : Nat}

/-! ## Queues -/

theorem nodup_enqueue (h : t.queue.Nodup) : (t.enqueue key).queue.Nodup := by
  rw [enqueue]
  split
  · exact h
  · rename_i hkey
    refine List.nodup_append.mpr ⟨h, List.pairwise_singleton _ key, fun a ha b hb he => hkey ?_⟩
    rw [List.contains_iff_mem, ← List.mem_singleton.mp hb, ← he]
    exact ha

theorem nodup_recorded (h : t.queue.Nodup) : (t.recorded c key).queue.Nodup := by
  rw [recorded_eq]
  split
  · exact nodup_enqueue h
  · exact h

theorem nodup_foldl_load {read : List (Bytes × Compaction)} (h : t.queue.Nodup) :
    (read.foldl load t).queue.Nodup := by
  induction read generalizing t with
  | nil => exact h
  | cons row read ih =>
    refine ih ?_
    rw [load_eq]
    split
    · exact nodup_enqueue h
    · exact h

theorem fixes_stripCompaction : Moves (Fixes World.queue) (stripCompaction run key) := by
  have honHost {ε α : Type} {wrap : ε → UpkeepError} {a : Host.Action ε α} :
      Moves (Fixes World.queue) (onHost wrap a) :=
    fun w r w' h => congrArg Tracker.queue (fixes_onHost w r w' h)
  have hinputs {is : List FileInfo} : Moves (Fixes World.queue) (stripInputs run is) :=
    fun w r w' h => congrArg Prod.fst (fixes_stripInputs w r w' h)
  refine moves_bind honHost fun row => ?_
  split
  · refine moves_bind moves_ofExcept fun c => moves_bind hinputs fun x => ?_
    dsimp only
    split
    · refine moves_bind honHost fun row => ?_
      split
      · exact moves_bind honHost fun _ => moves_pure
      · exact moves_pure
    · exact moves_pure
  · exact moves_pure

/-- A failure was one in handling the compaction with a key. -/
def FailedAt (key : Bytes) (e : UpkeepError) (w' : World) : Prop :=
  ∃ run w₁ w₂, Runs (stripCompaction run key) w₁ (.error e) w₂ ∧
    w' = { w₂ with tracker := w₂.tracker.countFailure }

/-- However stripping ends, keys were taken from the front of the queue, if any. -/
theorem queue_of_stripQueued {r : Except UpkeepError StripRun}
    (h : Runs (stripQueued left run) w r w') : w'.queue <:+ w.queue := by
  induction left generalizing w run with
  | zero =>
    obtain ⟨-, rfl⟩ := runs_pure.mp h
    exact List.suffix_refl _
  | succ left ih =>
    cases hq : w.queue with
    | nil =>
      obtain ⟨-, rfl⟩ := (runs_stripQueued_nil hq).mp h
      exact hq ▸ List.suffix_refl _
    | cons key rest =>
      rcases stripQueued_steps hq h with ⟨e, w₁, hstrip, -, rfl⟩ | ⟨run₁, w₁, -, h⟩
      · have hkept : w₁.queue = w.queue := fixes_stripCompaction _ _ _ hstrip
        rw [← hq, ← hkept]
        exact List.suffix_refl _
      · exact (ih h).trans (List.suffix_cons key rest)

/-! ## Worlds that are reached -/

/-- Worlds that a tracker comes to which is opened with an empty queue: events are told to it, it
starts on the history that it finds, and upkeep is done, all of it ending one way or the other. In
between, all but the queue may change. -/
inductive Reached : World → Prop where
  | opened {w : World} (queue : w.queue = []) : Reached w
  | begin {w w' : World} {store : Store} {j : Job} {r : Except Error Unit} (before : Reached w)
      (ran : Runs (beginJob store j) w r w') : Reached w'
  | complete {w w' : World} {store : Store} {now : UInt64} {j : Job} {r : Except Error Unit}
      (before : Reached w) (ran : Runs (completeJob store now j) w r w') : Reached w'
  | load {w w' : World} {r : Except Error Loaded} (before : Reached w)
      (ran : Runs loadHistory w r w') : Reached w'
  | expire {w w' : World} {now : UInt64} {r : Except UpkeepError Expired} (before : Reached w)
      (ran : Runs (expireHistory now) w r w') : Reached w'
  | drop {w w' : World} {r : Except UpkeepError Nat} (before : Reached w)
      (ran : Runs dropOutputBackups w r w') : Reached w'
  | strip {w w' : World} {r : Except UpkeepError StripRun} (before : Reached w)
      (ran : Runs stripBackups w r w') : Reached w'
  | altered {w w' : World} (before : Reached w) (queue : w'.queue = w.queue) : Reached w'

/-- A key is in the queue once. -/
theorem Reached.nodup (h : Reached w) : w.queue.Nodup := by
  induction h with
  | opened queue => rw [queue]; exact List.nodup_nil
  | begin _ ran ih =>
    obtain ⟨htracker | ⟨infos, htracker⟩, -⟩ := runs_beginJob ran
    · rwa [World.queue, htracker]
    · rw [World.queue, htracker]
      exact ih
  | @complete w w' store now j r _ ran ih =>
    cases r with
    | error e => rwa [World.queue, (completeJob_error ran).1]
    | ok u =>
      rcases completeJob_ok ran with ⟨-, rfl⟩ | ⟨-, -, rfl⟩ | ⟨-, -, c, -, ⟨-, ha⟩ | ⟨-, hrec⟩⟩
      · exact ih
      · exact ih
      · rwa [World.queue, ha.tracker]
      · rw [World.queue, hrec.tracker]
        exact nodup_recorded ih
  | load _ ran ih =>
    rcases tracker_of_loadHistory ran with htracker | ⟨read, -, htracker⟩
    · rwa [World.queue, htracker]
    · rw [World.queue, htracker]
      exact nodup_foldl_load ih
  | expire _ ran ih =>
    obtain ⟨names, hexp, -⟩ := runs_expireHistory ran
    rw [World.queue, hexp.tracker]
    exact ih
  | drop _ ran ih =>
    rcases runs_dropOutputBackups ran with ⟨-, rfl⟩ | ⟨-, ran⟩
    · exact ih
    · have hrest := (removeBackups_within ran).1
      have hqueue : World.queue _ = World.queue _ := congrArg (fun r => r.1.queue) hrest
      rwa [hqueue]
  | strip _ ran ih =>
    rw [runs_stripBackups_iff] at ran
    split at ran
    · split at ran
      · exact ih.sublist (queue_of_stripQueued ran).sublist
      · rwa [ran.2]
    · rwa [ran.2]
  | altered _ queue ih => rwa [queue]

/-! ## Rows -/

/-- A row once the inputs of its compaction are stripped. -/
def rewritten (w : World) (row : Bytes) : Bytes :=
  match History.readRow row with
  | .error _ => row
  | .ok c =>
    if c.inputs.map (marked w) = c.inputs then row
    else Compaction.encode { c with inputs := c.inputs.map (marked w) }

/-- A file has a backup, and is an input of one of some compactions that was not stripped. -/
def Due (w : World) (keys : List Bytes) (n : String) : Prop :=
  Backed w n ∧ ∃ key ∈ keys, ∃ row c, w.host.history.rows[key]? = some row ∧
    History.readRow row = .ok c ∧ ∃ i ∈ c.inputs, i.stripped = false ∧ i.name = n

/-- The compactions with some keys are handled, and of others with keys among `keys` some backups
may be, but their rows tell nothing of it. -/
structure Toward (w : World) (saved keys : List Bytes) (w' : World) : Prop where
  orderly : Orderly w
  rooted : ∀ n, Due w keys n → Rooted w
  copying : Copying (Due w keys) w w'
  rows : ∀ key : Bytes, w'.host.history.rows[key]? =
    if key ∈ saved then w.host.history.rows[key]?.map (rewritten w) else w.host.history.rows[key]?
  read : ∀ key ∈ saved, ∀ row, w.host.history.rows[key]? = some row →
    ∃ c, History.readRow row = .ok c
  copied : ∀ n, Due w saved n → Admits w n ∧ Replaced w w' n

namespace Toward

theorem start (ho : Orderly w) (hroot : ∀ n, Due w keys n → Rooted w) : Toward w [] keys w where
  orderly := ho
  rooted := hroot
  copying := .refl
  rows key := by rw [if_neg List.not_mem_nil]
  read key hkey := absurd hkey List.not_mem_nil
  copied n hn := by
    obtain ⟨-, key, hkey, -⟩ := hn
    exact absurd hkey List.not_mem_nil

theorem still_copied (h : Toward w saved keys w₁) (hc : Copying (Due w keys) w₁ w') (n : String)
    (hn : Due w saved n) : Admits w n ∧ Replaced w w' n :=
  (h.copied n hn).imp_right (h.copying.still_replaced hc h.orderly)

/-- More backups were copied. -/
theorem copy (h : Toward w saved keys w₁) (hc : Copying (Due w keys) w₁ w')
    (hrows : w'.host.history.rows = w₁.host.history.rows) : Toward w saved keys w' where
  orderly := h.orderly
  rooted := h.rooted
  copying := h.copying.trans hc h.orderly
  rows := by
    rw [hrows]
    exact h.rows
  read := h.read
  copied := h.still_copied hc

/-- One more compaction is handled. -/
theorem save (h : Toward w saved keys w₁) (hc : Copying (Due w keys) w₁ w')
    (hrows : ∀ k : Bytes, k ≠ key → w'.host.history.rows[k]? = w₁.host.history.rows[k]?)
    (hrow : w'.host.history.rows[key]? = w.host.history.rows[key]?.map (rewritten w))
    (hread : ∀ row, w.host.history.rows[key]? = some row → ∃ c, History.readRow row = .ok c)
    (hcopied : ∀ n, Due w [key] n → Admits w n ∧ Replaced w w' n) :
    Toward w (saved ++ [key]) keys w' where
  orderly := h.orderly
  rooted := h.rooted
  copying := h.copying.trans hc h.orderly
  rows k := by
    by_cases hk : k = key
    · subst hk
      rw [if_pos (List.mem_append_right _ (List.mem_singleton_self _)), hrow]
    · rw [hrows k hk, h.rows]
      refine if_congr ?_ rfl rfl
      rw [List.mem_append, List.mem_singleton, or_iff_left hk]
  read k hk := by
    rcases List.mem_append.mp hk with hk | hk
    · exact h.read k hk
    · rw [List.mem_singleton.mp hk]
      exact hread
  copied n hn := by
    obtain ⟨hb, k, hk, hdue⟩ := hn
    rcases List.mem_append.mp hk with hk | hk
    · exact h.still_copied hc n ⟨hb, k, hk, hdue⟩
    · exact hcopied n ⟨hb, k, hk, hdue⟩

theorem later (h : Toward w saved keys w₁) : Toward w saved keys w₁.later := h.copy .later rfl

/-- A row is what it was until its compaction is handled. -/
theorem row_eq (h : Toward w saved keys w₁) (hnew : key ∉ saved) :
    w₁.host.history.rows[key]? = w.host.history.rows[key]? := by
  rw [h.rows, if_neg hnew]

/-- One more compaction is handled, the row of which was read. -/
theorem save_read (h : Toward w saved keys w₁) (hcopy : Copying (Due w keys) w₁ w')
    (hrow : w.host.history.rows[key]? = some row) (hc : History.readRow row = .ok c)
    (hrows : ∀ k : Bytes, k ≠ key → w'.host.history.rows[k]? = w₁.host.history.rows[k]?)
    (hrow' : w'.host.history.rows[key]? = some (if c.inputs.map (marked w) = c.inputs then row
      else Compaction.encode { c with inputs := c.inputs.map (marked w) }))
    (hcopied : ∀ n, Due w [key] n → Admits w n ∧ Replaced w w' n) :
    Toward w (saved ++ [key]) keys w' := by
  refine h.save hcopy hrows ?_ ?_ hcopied
  · rw [hrow', hrow, Option.map_some, rewritten, hc]
  · intro row' hfound
    cases hrow.symm.trans hfound
    exact ⟨c, hc⟩

/-- One more compaction is handled, the row of which is gone. -/
theorem save_gone (h : Toward w saved keys w₁) (hnew : key ∉ saved)
    (hnone : w.host.history.rows[key]? = none) : Toward w (saved ++ [key]) keys w₁.later := by
  refine h.save .later (fun _ _ => rfl) ?_ ?_ ?_
  · rw [hnone]
    exact (h.row_eq hnew).trans hnone
  · intro row hrow
    cases hnone.symm.trans hrow
  · rintro n ⟨-, k, hk, row, c, hrow, -⟩
    cases List.mem_singleton.mp hk
    cases hnone.symm.trans hrow

/-- The inputs of one more compaction are stripped, as far as that comes. -/
theorem inputs {r : Except UpkeepError (List FileInfo × StripRun)} (h : Toward w saved keys w₁)
    (hkey : key ∈ keys) (hrow : w.host.history.rows[key]? = some row)
    (hc : History.readRow row = .ok c) (hr : Runs (stripInputs run c.inputs) w₁ r w') :
    Toward w saved keys w' ∧ w'.host.history = w₁.host.history ∧
      ∀ is run', r = .ok (is, run') → is = c.inputs.map (marked w) ∧
        run'.compactions = run.compactions ∧
        ∀ n, Due w [key] n → Admits w n ∧ Replaced w w' n := by
  have hdue {i : FileInfo} (hi : i ∈ c.inputs) (hs : i.stripped = false) (hb : Backed w i.name) :
      Due w keys i.name := ⟨hb, key, hkey, row, c, hrow, hc, i, hi, hs, rfl⟩
  have hhistory : w'.host.history = w₁.host.history :=
    congrArg (fun l => l.2.1) (fixes_stripInputs _ _ _ hr)
  obtain ⟨hcopy, hok⟩ := copying_stripInputs (P := Due w keys) (h.copying.orderly h.orderly)
    (fun i hi hs hb => by
      have hdue := hdue hi hs (h.copying.backed.mp hb)
      exact ⟨h.copying.rooted (h.rooted i.name hdue), hdue⟩) hr
  refine ⟨h.copy hcopy (congrArg Table.rows hhistory), hhistory, fun is run' he => ?_⟩
  obtain ⟨hmarked, hrun, hcopied⟩ := hok is run' he
  refine ⟨hmarked.trans (List.map_congr_left fun i _ => h.copying.marked), hrun, ?_⟩
  rintro n ⟨hb, k, hk, row', c', hrow', hc', i, hi, hs, rfl⟩
  cases List.mem_singleton.mp hk
  cases hrow.symm.trans hrow'
  cases hc.symm.trans hc'
  obtain ⟨ha, hr⟩ := hcopied i hi hs (h.copying.backed.mpr hb)
  exact ⟨h.copying.admits.mp ha, h.copying.replaced h.orderly hr⟩

/-- The inputs of one more compaction are stripped, as far as that comes, and its row is put. -/
theorem strips {r : Except UpkeepError StripRun} (h : Toward w saved keys w₁)
    (hkey : key ∈ keys) (hnew : key ∉ saved) (hr : Strips run key w₁ r w') :
    (∀ e, r = .error e → Toward w saved keys w') ∧
      ∀ run', r = .ok run' → run'.compactions = run.compactions ∧
        Toward w (saved ++ [key]) keys w' := by
  have hsame := h.row_eq hnew
  cases hr with
  | unread => exact ⟨fun _ _ => h.later, fun run' he => by cases he⟩
  | gone hrow =>
    refine ⟨fun e he => (by cases he), fun run' he => ?_⟩
    cases he
    exact ⟨rfl, h.save_gone hnew (hsame.symm.trans hrow)⟩
  | stuck hrow hc ran =>
    exact ⟨fun _ _ => (h.later.inputs hkey (hsame.symm.trans hrow) hc ran).1,
      fun run' he => by cases he⟩
  | same hrow hc ran =>
    have hrow₀ := hsame.symm.trans hrow
    obtain ⟨h₂, hhistory, hok⟩ := h.later.inputs hkey hrow₀ hc ran
    obtain ⟨hmarked, hrun, hall⟩ := hok _ _ rfl
    refine ⟨fun e he => (by cases he), fun run' he => ?_⟩
    cases he
    refine ⟨hrun, h₂.save_read .refl hrow₀ hc (fun _ _ => rfl) ?_ hall⟩
    rw [hhistory, if_pos hmarked.symm]
    exact hrow
  | unsaved hrow hc ran =>
    exact ⟨fun _ _ => (h.later.inputs hkey (hsame.symm.trans hrow) hc ran).1.later,
      fun run' he => by cases he⟩
  | put hrow hc ran differ ran' =>
    have hrow₀ := hsame.symm.trans hrow
    obtain ⟨h₂, -, hok⟩ := h.later.inputs hkey hrow₀ hc ran
    obtain ⟨rfl, hrun, hall⟩ := hok _ _ rfl
    have hcopy := copying_putRow (P := Due w keys) ran'
    obtain ⟨-, ⟨rfl, hrows⟩ | ⟨⟨e, rfl⟩, hkept⟩⟩ := runs_putRow ran'
    · refine ⟨fun e he => (by cases he), fun run' he => ?_⟩
      cases he
      refine ⟨hrun, h₂.later.save_read hcopy hrow₀ hc (fun k hk => ?_) ?_ fun n hn => ?_⟩
      · rw [hrows, Std.ExtTreeMap.getElem?_insert, if_neg]
        exact fun he => hk (Std.compare_eq_iff_eq.mp he).symm
      · rw [hrows, Std.ExtTreeMap.getElem?_insert_self, if_neg differ]
      · obtain ⟨ha, hr⟩ := hall n hn
        exact ⟨ha, h₂.later.copying.still_replaced hcopy h.orderly hr⟩
    · exact ⟨fun _ _ => h₂.later.copy hcopy (by rw [hkept]), fun run' he => by cases he⟩

/-- What changes but the queue and the counts of a tracker is no matter of its backups. -/
theorem counted {t : Tracker} (h : Toward w saved keys w₁)
    (ht : t.uncounted = w₁.tracker.uncounted) :
    Toward w saved keys { w₁ with tracker := t } :=
  h.copy (.of_disk ht rfl rfl rfl) rfl

/-- The keys at the front of the queue are handled one after the other, as far as that comes. -/
theorem stripQueued {r : Except UpkeepError StripRun} (h : Toward w saved keys w₁)
    (hnodup : w₁.queue.Nodup)
    (hkeys : ∀ key ∈ w₁.queue.take left, key ∈ keys ∧ key ∉ saved)
    (hr : Runs (stripQueued left run) w₁ r w') :
    (∀ e, r = .error e → ∃ done key rest, w₁.queue = done ++ key :: rest ∧
      w'.queue = key :: rest ∧ FailedAt key e w' ∧ Toward w (saved ++ done) keys w') ∧
    ∀ run', r = .ok run' → run'.compactions = run.compactions + min left w₁.queue.length ∧
      w'.queue = w₁.queue.drop left ∧ Toward w (saved ++ w₁.queue.take left) keys w' := by
  induction left generalizing w₁ saved run with
  | zero =>
    obtain ⟨rfl, rfl⟩ := runs_pure.mp hr
    refine ⟨fun e he => (by cases he), fun run' he => ?_⟩
    cases he
    rw [Nat.zero_min, List.take_zero, List.drop_zero, List.append_nil]
    exact ⟨rfl, rfl, h⟩
  | succ left ih =>
    cases hq : w₁.queue with
    | nil =>
      obtain ⟨rfl, rfl⟩ := (runs_stripQueued_nil hq).mp hr
      refine ⟨fun e he => (by cases he), fun run' he => ?_⟩
      cases he
      rw [List.length_nil, Nat.min_zero, List.take_nil, List.drop_nil, List.append_nil]
      exact ⟨rfl, hq, h⟩
    | cons key rest =>
      rw [hq, List.nodup_cons] at hnodup
      rw [hq, List.take_succ_cons, List.forall_mem_cons] at hkeys
      obtain ⟨⟨hkey, hnew⟩, hrest⟩ := hkeys
      rcases stripQueued_steps hq hr with
        ⟨e, w₂, hstrip, rfl, rfl⟩ | ⟨run₂, w₂, hstrip, hr⟩
      · obtain ⟨herror, -⟩ := h.strips hkey hnew (strips_of_stripCompaction hstrip)
        have hqueue : w₂.queue = w₁.queue := fixes_stripCompaction _ _ _ hstrip
        refine ⟨fun e' he => ?_, fun run' he => by cases he⟩
        cases he
        refine ⟨[], key, rest, rfl, hqueue.trans hq, ⟨run, w₁, w₂, hstrip, rfl⟩, ?_⟩
        rw [List.append_nil]
        exact (herror e rfl).counted rfl
      · obtain ⟨-, hok⟩ := h.strips hkey hnew (strips_of_stripCompaction hstrip)
        obtain ⟨hrun, h₂⟩ := hok run₂ rfl
        have hothers : ∀ k ∈ rest.take left, k ∈ keys ∧ k ∉ saved ++ [key] := by
          intro k hk
          obtain ⟨hkey', hnew'⟩ := hrest k hk
          refine ⟨hkey', fun hmem => ?_⟩
          rcases List.mem_append.mp hmem with hmem | hmem
          · exact hnew' hmem
          · exact hnodup.1 (List.mem_singleton.mp hmem ▸ List.mem_of_mem_take hk)
        have h₃ : Toward w (saved ++ [key]) keys
            { w₂ with tracker := { w₂.tracker with queue := rest } } := h₂.counted rfl
        obtain ⟨herror, hok'⟩ := ih h₃ hnodup.2 hothers hr
        refine ⟨fun e he => ?_, fun run' he => ?_⟩
        · obtain ⟨done, key', rest', hsplit, hqueue, hfailed, htoward⟩ := herror e he
          rw [List.append_assoc] at htoward
          exact ⟨key :: done, key', rest', congrArg (key :: ·) hsplit, hqueue, hfailed, htoward⟩
        · obtain ⟨hcount, hqueue, htoward⟩ := hok' run' he
          rw [List.append_assoc] at htoward
          refine ⟨?_, hqueue, htoward⟩
          rw [hcount, hrun, List.length_cons, Nat.succ_min_succ]
          exact (Nat.add_right_comm _ _ _).trans (Nat.add_assoc _ _ _)

end Toward

end Lineage.Tracker
