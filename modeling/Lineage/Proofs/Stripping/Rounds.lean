import Lineage.Proofs.Quiet
import Lineage.Proofs.Stripping.Queues

/-!
# Rounds of stripping

A round takes as many keys from the front of the queue as it may, and what it leaves is `Toward` a
world in which all of these are handled (`Toward.stripBackups`, `Toward.handled`). If nothing is
refused, it goes through unless some row or backup cannot be read (`Toward.exists_stripBackups`).
-/

namespace Lineage

open World (onDisk onHost update)

namespace Tracker

variable {w w₁ w' : World} {n : String} {key row : Bytes} {c : Compaction} {saved keys : List Bytes}
  {run : StripRun} {left : Nat}

/-! ## Rounds in which nothing is refused -/

/-- Nothing but a refusal is in the way of handling the compactions with some keys. -/
structure Feasible (w : World) (keys : List Bytes) : Prop where
  read : ∀ key ∈ keys, ∀ row, w.host.history.rows[key]? = some row →
    ∃ c, History.readRow row = .ok c
  due : ∀ n, Due w keys n → Admits w n ∧ ∃ b, StripsTo w n b

theorem stripBackup_quiet {r : Except UpkeepError Unit} (ho : Orderly w)
    (hq : w.disk.outage = .quiet) (hroot : Rooted w) (ha : Admits w n)
    (hs : ∃ b, StripsTo w n b) (h : Runs (stripBackup (w.tracker.backupPath n)) w r w') :
    r = .ok () ∧ w'.disk.outage = .quiet := by
  obtain ⟨b, hs⟩ := hs
  obtain ⟨w₁, hrun, hquiet⟩ := exists_stripBackup hq ho hroot hs ha
  cases h.symm.trans hrun
  exact ⟨rfl, hquiet⟩

theorem treated_quiet {i i' : FileInfo} (h : Treated i w i' w') (ho : Orderly w)
    (hq : w.disk.outage = .quiet) (hdue : i.stripped = false → Backed w i.name →
      Rooted w ∧ Admits w i.name ∧ ∃ b, StripsTo w i.name b) : w'.disk.outage = .quiet := by
  cases h with
  | before => exact hq
  | copied due backed ran =>
    obtain ⟨hroot, ha, hb⟩ := hdue due backed
    exact (stripBackup_quiet ho hq hroot ha hb ran).2
  | skipped => exact hq

theorem stripInputs_quiet {is : List FileInfo} {r : Except UpkeepError (List FileInfo × StripRun)}
    (ho : Orderly w) (hq : w.disk.outage = .quiet)
    (hdue : ∀ i ∈ is, i.stripped = false → Backed w i.name →
      Rooted w ∧ Admits w i.name ∧ ∃ b, StripsTo w i.name b)
    (h : Runs (stripInputs run is) w r w') : (∃ x, r = .ok x) ∧ w'.disk.outage = .quiet := by
  induction is generalizing w run r with
  | nil =>
    obtain ⟨rfl, rfl⟩ := runs_pure.mp h
    exact ⟨⟨_, rfl⟩, hq⟩
  | cons i rest ih =>
    rw [List.forall_mem_cons] at hdue
    rcases stripInputs_steps h with
      ⟨i', w₁, run₁, r₁, hfirst, -, hrest, rfl⟩ | ⟨due, backed, e, hstrip, -⟩
    · obtain ⟨hc, -, -⟩ := copying_of_treated (P := fun _ => True) hfirst ho
        fun hs hb => ⟨(hdue.1 hs hb).1, trivial⟩
      have hdue₁ : ∀ j ∈ rest, j.stripped = false → Backed w₁ j.name →
          Rooted w₁ ∧ Admits w₁ j.name ∧ ∃ b, StripsTo w₁ j.name b := by
        intro j hj hs hb
        obtain ⟨hroot, ha, b, hb'⟩ := hdue.2 j hj hs (hc.backed.mp hb)
        exact ⟨hc.rooted hroot, hc.admits.mpr ha, b, (hc.stripsTo ho).mpr hb'⟩
      obtain ⟨⟨x, rfl⟩, hq'⟩ := ih (hc.orderly ho) (treated_quiet hfirst ho hq hdue.1) hdue₁ hrest
      exact ⟨⟨_, rfl⟩, hq'⟩
    · obtain ⟨hroot, ha, hb'⟩ := hdue.1 due backed
      cases (stripBackup_quiet ho hq hroot ha hb' hstrip).1

theorem Toward.inputs_quiet {r : Except UpkeepError (List FileInfo × StripRun)}
    (h : Toward w saved keys w₁) (hq : w₁.Quiet) (hfeas : Feasible w keys) (hkey : key ∈ keys)
    (hrow : w.host.history.rows[key]? = some row) (hc : History.readRow row = .ok c)
    (hr : Runs (stripInputs run c.inputs) w₁ r w') : (∃ x, r = .ok x) ∧ w'.Quiet := by
  obtain ⟨hok, hdisk⟩ := stripInputs_quiet (h.copying.orderly h.orderly) hq.disk
    (fun i hi hs hb => by
      have hdue : Due w keys i.name :=
        ⟨h.copying.backed.mp hb, key, hkey, row, c, hrow, hc, i, hi, hs, rfl⟩
      obtain ⟨ha, b, hb'⟩ := hfeas.due i.name hdue
      exact ⟨h.copying.rooted (h.rooted i.name hdue), h.copying.admits.mpr ha, b,
        (h.copying.stripsTo h.orderly).mpr hb'⟩) hr
  have houtage : w'.host.outage = w₁.host.outage :=
    congrArg (fun l => l.2.2) (fixes_stripInputs _ _ _ hr)
  exact ⟨hok, hdisk, houtage.trans hq.history⟩

/-- What was ready to be handled is handled in a quiet world. -/
theorem Toward.strips_quiet {r : Except UpkeepError StripRun} (h : Toward w saved keys w₁)
    (hq : w₁.Quiet) (hfeas : Feasible w keys) (hkey : key ∈ keys) (hnew : key ∉ saved)
    (hr : Strips run key w₁ r w') : (∃ x, r = .ok x) ∧ w'.Quiet := by
  have hsame := h.row_eq hnew
  have hinputs {row : Bytes} {c : Compaction} {r : Except UpkeepError (List FileInfo × StripRun)}
      {w₂ : World} (hrow : w₁.host.history.rows[key]? = some row)
      (hc : History.readRow row = .ok c) (hr : Runs (stripInputs run c.inputs) w₁.later r w₂) :
      (∃ x, r = .ok x) ∧ w₂.Quiet :=
    h.later.inputs_quiet hq.later hfeas hkey (hsame.symm.trans hrow) hc hr
  cases hr with
  | unread cause =>
    rcases cause with hcause | ⟨row, e, hrow, he⟩
    · exact absurd hcause hq.not_refused
    · obtain ⟨c, hc⟩ := hfeas.read key hkey row (hsame.symm.trans hrow)
      cases he.symm.trans hc
  | gone => exact ⟨⟨_, rfl⟩, hq.later⟩
  | stuck hrow hc ran =>
    obtain ⟨⟨x, hx⟩, -⟩ := hinputs hrow hc ran
    cases hx
  | same hrow hc ran => exact ⟨⟨_, rfl⟩, (hinputs hrow hc ran).2⟩
  | unsaved hrow hc ran cause => exact absurd cause (hinputs hrow hc ran).2.not_refused
  | put hrow hc ran differ ran' =>
    obtain ⟨rfl, hquiet⟩ := putRow_quiet (hinputs hrow hc ran).2.later ran'
    exact ⟨⟨_, rfl⟩, hquiet⟩

theorem Toward.stripQueued_quiet {r : Except UpkeepError StripRun} (h : Toward w saved keys w₁)
    (hq : w₁.Quiet) (hfeas : Feasible w keys) (hnodup : w₁.queue.Nodup)
    (hkeys : ∀ key ∈ w₁.queue.take left, key ∈ keys ∧ key ∉ saved)
    (hr : Runs (Tracker.stripQueued left run) w₁ r w') : ∃ run', r = .ok run' := by
  induction left generalizing w₁ saved run with
  | zero => exact ⟨run, (runs_pure.mp hr).1⟩
  | succ left ih =>
    cases hqueue : w₁.queue with
    | nil => exact ⟨run, ((runs_stripQueued_nil hqueue).mp hr).1⟩
    | cons key rest =>
      rw [hqueue, List.nodup_cons] at hnodup
      rw [hqueue, List.take_succ_cons, List.forall_mem_cons] at hkeys
      obtain ⟨⟨hkey, hnew⟩, hrest⟩ := hkeys
      rcases stripQueued_steps hqueue hr with ⟨e, w₂, hstrip, -, -⟩ | ⟨run₂, w₂, hstrip, hr⟩
      · obtain ⟨⟨x, hx⟩, -⟩ := h.strips_quiet hq hfeas hkey hnew (strips_of_stripCompaction hstrip)
        cases hx
      · have hstrips := strips_of_stripCompaction hstrip
        obtain ⟨-, hok⟩ := h.strips hkey hnew hstrips
        obtain ⟨-, hq₂⟩ := h.strips_quiet hq hfeas hkey hnew hstrips
        have h₃ : Toward w (saved ++ [key]) keys
            { w₂ with tracker := { w₂.tracker with queue := rest } } := (hok run₂ rfl).2.counted rfl
        refine ih h₃ ⟨hq₂.disk, hq₂.history⟩ hnodup.2 (fun k hk => ?_) hr
        obtain ⟨hkey', hnew'⟩ := hrest k hk
        refine ⟨hkey', fun hmem => ?_⟩
        rcases List.mem_append.mp hmem with hmem | hmem
        · exact hnew' hmem
        · exact hnodup.1 (List.mem_singleton.mp hmem ▸ List.mem_of_mem_take hk)

/-! ## What a round does -/

/-- A round handles the keys at the front of the queue, as many as one round may. -/
theorem Toward.stripBackups {r : Except UpkeepError StripRun} (h : Toward w saved keys w₁)
    (hnodup : w₁.queue.Nodup)
    (hkeys : ∀ key ∈ w₁.queue.take w₁.tracker.options.stripBatch, key ∈ keys ∧ key ∉ saved)
    (hon : (w₁.tracker.active && w₁.tracker.options.stripValues) = true)
    (hattached : w₁.tracker.attached = true) (hr : Runs stripBackups w₁ r w') :
    (∀ e, r = .error e → ∃ done key rest, w₁.queue = done ++ key :: rest ∧
      w'.queue = key :: rest ∧ FailedAt key e w' ∧ Toward w (saved ++ done) keys w') ∧
    ∀ run', r = .ok run' →
      run'.compactions = min w₁.tracker.options.stripBatch w₁.queue.length ∧
      w'.queue = w₁.queue.drop w₁.tracker.options.stripBatch ∧
      Toward w (saved ++ w₁.queue.take w₁.tracker.options.stripBatch) keys w' := by
  rw [runs_stripBackups_iff, if_pos hon, if_pos hattached] at hr
  have hcounted : Toward w saved keys { w₁ with tracker := w₁.tracker.countBatch } :=
    h.counted rfl
  obtain ⟨herror, hok⟩ := hcounted.stripQueued hnodup hkeys hr
  refine ⟨herror, fun run' he => ?_⟩
  obtain ⟨hcount, hqueue⟩ := hok run' he
  exact ⟨hcount.trans (Nat.zero_add _), hqueue⟩

theorem Toward.exists_stripBackups (h : Toward w [] keys w₁) (hq : w₁.Quiet)
    (hfeas : Feasible w keys) (hnodup : w₁.queue.Nodup)
    (hkeys : ∀ key ∈ w₁.queue.take w₁.tracker.options.stripBatch, key ∈ keys)
    (hon : (w₁.tracker.active && w₁.tracker.options.stripValues) = true)
    (hattached : w₁.tracker.attached = true) :
    ∃ run w', Runs Tracker.stripBackups w₁ (.ok run) w' := by
  have hrun : Runs Tracker.stripBackups w₁ _ _ := rfl
  have hqueued := hrun
  rw [runs_stripBackups_iff, if_pos hon, if_pos hattached] at hqueued
  have hcounted : Toward w [] keys { w₁ with tracker := w₁.tracker.countBatch } := h.counted rfl
  obtain ⟨run, hok⟩ := hcounted.stripQueued_quiet ⟨hq.disk, hq.history⟩ hfeas hnodup
    (fun key hk => ⟨hkeys key hk, List.not_mem_nil⟩) hqueued
  rw [hok] at hrun
  exact ⟨run, _, hrun⟩

/-- The backup of a file gives the keys that it gave, in the same order and without values. -/
def Emptied (w w' : World) (n : String) : Prop :=
  ∃ r r' es, w.disk.Reads (w.tracker.backupPath n) r ∧ r.cursor.Yields r es none ∧
    w'.disk.Reads (w.tracker.backupPath n) r' ∧
    r'.cursor.Yields r' (es.map SortedTable.emptied) none

theorem emptied_of_replaced (h : Replaced w w' n) : Emptied w w' n := by
  obtain ⟨b, ⟨r, s, hreads, hs⟩, hb⟩ := h
  obtain ⟨r', hopen, hentries, -⟩ := SortedTable.strip_strip hs
  refine ⟨r, r', r.entries.1, hreads, ?_, Disk.reads_iff.mpr ⟨b, hb, hopen⟩,
    SortedTable.Reader.yields_iff.mpr hentries⟩
  exact SortedTable.Reader.yields_iff.mpr (Prod.ext rfl (SortedTable.strip_eq_ok.mp hs).1)

/-- The backup of a file is the file that it was, with the same bytes. -/
def Intact (w w' : World) (n : String) : Prop :=
  w'.disk.at? (w.tracker.backupPath n) = w.disk.at? (w.tracker.backupPath n) ∧
    ∀ b, w'.disk.bytesAt (w.tracker.backupPath n) = .ok b ↔
      w.disk.bytesAt (w.tracker.backupPath n) = .ok b

theorem Toward.intact (h : Toward w saved keys w')
    (hdue : ¬ ∃ m, Due w keys m ∧ (w.tracker.backupPath n).spot = (w.tracker.backupPath m).spot) :
    Intact w w' n := by
  have hsame := (h.copying.copies n).resolve_right fun hc => hdue hc.1
  exact ⟨hsame, fun b => h.copying.bytes h.orderly hsame⟩

/-- The row with a key names the inputs of its compaction without slashes, if it can be read. -/
def PlainRow (w : World) (key : Bytes) : Prop :=
  ∀ row c, w.host.history.rows[key]? = some row → History.readRow row = .ok c →
    ∀ i ∈ c.inputs, Unslashed i.name

theorem Due.unslashed (hplain : ∀ key ∈ keys, PlainRow w key) (h : Due w keys n) :
    Unslashed n := by
  obtain ⟨-, key, hkey, row, c, hrow, hc, i, hi, -, rfl⟩ := h
  exact hplain key hkey row c hrow hc i hi

/-- The compactions with some keys were handled, and nothing else was done. -/
structure Handled (keys : List Bytes) (w w' : World) : Prop where
  /-- In the row of each of them the inputs are marked, and nothing else changed. An input that is
  not marked has no backup, and if one is that was not, its backup lost its values. -/
  marks : ∀ key ∈ keys, ∀ row, w.host.history.rows[key]? = some row → ∃ c row',
    History.readRow row = .ok c ∧ w'.host.history.rows[key]? = some row' ∧
      History.readRow row' = .ok { c with inputs := c.inputs.map (marked w) } ∧
      (c.inputs.map (marked w) = c.inputs → row' = row) ∧
      ∀ i ∈ c.inputs, ((marked w i).stripped = true ∨ ¬ Backed w' i.name) ∧
        (i.stripped = false → (marked w i).stripped = true → Emptied w w' i.name)
  rows : ∀ key : Bytes, key ∉ keys ∨ w.host.history.rows[key]? = none →
    w'.host.history.rows[key]? = w.host.history.rows[key]?
  backups : ∀ n, Unslashed n → ¬ Due w keys n → Intact w w' n
  places : ∀ q, q ≠ w.tracker.scratchPath.spot →
    (∀ n, Due w keys n → q ≠ (w.tracker.backupPath n).spot) → w'.disk.node? q = w.disk.node? q
  contents : ∀ q id, q ≠ w.tracker.scratchPath.spot → w.disk.node? q = some (.file id) →
    w.host.history.file? ≠ some id → w'.disk.content id = w.disk.content id
  tracker : w'.tracker.uncounted = w.tracker.uncounted
  snapshots : w'.host.snapshots = w.host.snapshots

theorem Toward.handled (h : Toward w keys keys w') (hplain : ∀ key ∈ keys, PlainRow w key) :
    Handled keys w w' where
  marks key hkey row hrow := by
    obtain ⟨c, hc⟩ := h.read key hkey row hrow
    have hmap : (c.inputs.map (marked w)).map unmarked = c.inputs.map unmarked := by
      rw [List.map_map]
      exact List.map_congr_left fun _ _ => rfl
    have hrow' := h.rows key
    rw [if_pos hkey, hrow, Option.map_some] at hrow'
    refine ⟨c, rewritten w row, hc, hrow', ?_, fun hsame => ?_, fun i hi => ⟨?_, fun hs hm => ?_⟩⟩
    · rw [rewritten, hc]
      dsimp only
      split
      · rename_i hsame
        rw [hsame, hc]
      · exact Compaction.readRow_encode
          (fits_of_unmarked (Compaction.fits_of_readRow hc) hmap).1
    · rw [rewritten, hc]
      exact if_pos hsame
    · by_cases hb : Backed w i.name
      · rw [marked_of_backed hb]
        exact .inl rfl
      · exact .inr fun hb' => hb (h.copying.backed.mp hb')
    · have hb : Backed w i.name := by
        by_contra hb
        rw [marked_of_not_backed hb] at hm
        cases hs.symm.trans hm
      have hdue : Due w keys i.name := ⟨hb, key, hkey, row, c, hrow, hc, i, hi, hs, rfl⟩
      exact emptied_of_replaced (h.copied i.name hdue).2
  rows key hkey := by
    rw [h.rows]
    split
    · rcases hkey with hkey | hnone
      · exact absurd ‹_› hkey
      · rw [hnone]
        rfl
    · rfl
  backups n hn hdue := by
    refine h.intact ?_
    rintro ⟨m, hm, hs⟩
    refine hdue ?_
    rwa [((SortedTable.spot_pathIn_inj hn (hm.unslashed hplain)).mp hs).2]
  places q hq hdue := by
    refine (h.copying.disk.node q).resolve_right fun hp => ?_
    rcases hp.1 with hscratch | ⟨n, hn, hbackup⟩
    · exact hq hscratch
    · exact hdue n hn hbackup
  contents q id hq hnode hfile := h.copying.disk.content_eq h.orderly.disk hq hfile hnode
  tracker := h.copying.tracker
  snapshots := h.copying.snapshots

/-- A round that goes through handles the compactions at the front of the queue, as many as one
round may, and takes their keys and no other out of the queue. It does go through if nothing is
refused, the rows can be read, and the backups that are due can be stripped. -/
theorem stripBackups_handled {w : World} (hw : Reached w) (ho : Orderly w)
    (hplain : ∀ key ∈ w.queue, PlainRow w key) (hactive : w.tracker.active = true)
    (hstrips : w.tracker.options.stripValues = true) :
    (∀ run w', Runs stripBackups w (.ok run) w' → ∃ keys, w.queue = keys ++ w'.queue ∧
      w.queue.Nodup ∧ w'.queue.Nodup ∧
      keys.length = min w.tracker.options.stripBatch w.queue.length ∧
      run.compactions = keys.length ∧ Handled keys w w') ∧
    (w.tracker.attached = true → w.Quiet →
      Feasible w (w.queue.take w.tracker.options.stripBatch) →
      ∃ run w', Runs stripBackups w (.ok run) w') := by
  have hon : (w.tracker.active && w.tracker.options.stripValues) = true := by
    rw [hactive, hstrips]
    rfl
  have htaken : ∀ key ∈ w.queue.take w.tracker.options.stripBatch, PlainRow w key :=
    fun key hk => hplain key (List.mem_of_mem_take hk)
  have hstart : Toward w [] (w.queue.take w.tracker.options.stripBatch) w :=
    .start ho fun n hn => rooted_of_backed (hn.unslashed htaken) hn.1
  constructor
  · intro run w' h
    have hattached : w.tracker.attached = true := by
      have hsteps := h
      rw [runs_stripBackups_iff, if_pos hon] at hsteps
      by_contra hnot
      rw [if_neg hnot] at hsteps
      cases hsteps.1
    obtain ⟨-, hok⟩ := hstart.stripBackups hw.nodup
      (fun key hk => ⟨hk, List.not_mem_nil⟩) hon hattached h
    obtain ⟨hcount, hqueue, htoward⟩ := hok run rfl
    have hsplit : w.queue = w.queue.take w.tracker.options.stripBatch ++ w'.queue := by
      rw [hqueue, List.take_append_drop]
    refine ⟨_, hsplit, hw.nodup, ?_, List.length_take, hcount.trans List.length_take.symm,
      htoward.handled htaken⟩
    rw [hqueue]
    exact hw.nodup.sublist (List.drop_sublist _ _)
  · intro hattached hq hfeas
    exact hstart.exists_stripBackups hq hfeas hw.nodup (fun key hk => hk) hon hattached

end Tracker

end Lineage

/-! ## A round over one table -/

namespace Lineage.Sample

open SortedTable (Entry emptied opened table)
open Tracker (Reached Orderly Rooted Backed PlainRow Admits StripsTo Due Feasible Toward marked
  marked_of_backed backed_of_stripsTo stripBackups)

/-- The compaction of the table `x`. -/
def stripping : Compaction := named 5 0 "x" "y"

/-- A disk with a backup of the table `x`. -/
def backedUp : Disk where
  nodes := (((∅ : Std.ExtTreeMap Place Node).insert ["tracker"] .directory).insert
    ["tracker", "compaction-sst-backup"] .directory).insert
      ["tracker", "compaction-sst-backup", "x.sst"] (.file 0)
  contents := (∅ : Std.ExtTreeMap FileId Bytes).insert 0 (table stocked)
  unused := 1

/-- A tracker that is to strip the backup of the table `x`, and may be refused operations on its
table. -/
def laden (f : TableOperation → Option IoError) : World where
  host := { fresh.host with
    disk := backedUp
    history := .memory ((∅ : Rows).insert stripping.key stripping.encode)
    outage := .standing f }
  tracker := { tracker with queue := [stripping.key] }

variable {f : TableOperation → Option IoError} {n : String} {key row : Bytes} {c : Compaction}

theorem reached_laden : Reached (laden f) := by
  have hload : (started (beside "C 5 x:y\n")).queue = [stripping.key] := by decide +kernel
  exact .altered (.load (.opened rfl) (runs_started rfl)) hload.symm

theorem node?_backedUp {q : Place} {id : FileId} (h : backedUp.node? q = some (.file id)) :
    q = ["tracker", "compaction-sst-backup", "x.sst"] ∧ id = 0 := by
  have hq : q ≠ [] := by
    rintro rfl
    cases h
  rw [Disk.node?_eq hq, backedUp] at h
  simp only [Std.ExtTreeMap.getElem?_insert, Std.compare_eq_iff_eq] at h
  split at h
  · cases h
    exact ⟨Eq.symm ‹_›, rfl⟩
  · split at h
    · cases h
    · split at h
      · cases h
      · simp at h

theorem orderly_laden : Orderly (laden f) where
  disk := by
    refine ⟨fun q id hq => ?_, fun q id hs _ => ?_⟩
    · rw [(node?_backedUp hq).2]
      exact Nat.one_pos
    · have hspot : tracker.scratchPath.spot ≠
          ["tracker", "compaction-sst-backup", "x.sst"] := by decide +kernel
      exact absurd (node?_backedUp hs).1 hspot
  file id hid := by cases hid

theorem readRow_laden (h : (laden f).host.history.rows[key]? = some row) :
    History.readRow row = .ok stripping := by
  have hrows : (laden f).host.history.rows = (∅ : Rows).insert stripping.key stripping.encode := rfl
  rw [hrows, Std.ExtTreeMap.getElem?_insert] at h
  split at h
  · cases h
    exact Compaction.readRow_encode plain_named.fits
  · simp at h

theorem plainRow_laden : PlainRow (laden f) key := by
  intro row c hrow hc i hi
  cases hc.symm.trans (readRow_laden hrow)
  exact plain_named.inputs _ (List.mem_map_of_mem hi)

theorem due_laden {keys : List Bytes} (h : Due (laden f) keys n) : n = "x" := by
  obtain ⟨-, key, -, row, c, hrow, hc, i, hi, -, rfl⟩ := h
  cases hc.symm.trans (readRow_laden hrow)
  rw [List.mem_singleton.mp hi]

theorem reads_backedUp : backedUp.Reads (tracker.backupPath "x") (opened stocked) := by
  have hat : backedUp.at? (tracker.backupPath "x") = some (.file 0) := by decide +kernel
  exact ⟨0, hat, SortedTable.ofBytes_table short_stocked.1 (by decide)⟩

theorem stripsTo_laden : ∃ b, StripsTo (laden f) "x" b :=
  ⟨_, _, _, reads_backedUp, SortedTable.strip_of_ascends
    (SortedTable.Reader.yields_iff.mp yields_stocked) (by decide) short_stocked.2⟩

theorem admits_laden : Admits (laden f) "x" := by
  have hscratch : tracker.scratchPath.parent? = some tracker.backupDir := by decide +kernel
  have hbackup : (tracker.backupPath "x").parent? = some tracker.backupDir := by decide +kernel
  have hdir : backedUp.isDirectory tracker.backupDir = true := by decide +kernel
  have hfile : (backedUp.withFile tracker.scratchPath).isOk = true := by decide +kernel
  refine ⟨⟨fun dir hp => .inr ?_, ?_⟩, fun dir hp => ?_⟩
  · cases hscratch.symm.trans hp
    exact hdir
  · cases hmade : backedUp.withFile tracker.scratchPath with
    | ok made => exact ⟨made, hmade⟩
    | error e =>
      rw [hmade] at hfile
      cases hfile
  · cases hbackup.symm.trans hp
    exact hdir

theorem feasible_laden {keys : List Bytes} : Feasible (laden f) keys where
  read _ _ _ hrow := ⟨stripping, readRow_laden hrow⟩
  due n hn := by
    cases due_laden hn
    exact ⟨admits_laden, stripsTo_laden⟩

theorem rooted_laden : Rooted (laden f) := by
  have hdir : backedUp.at? tracker.backupDir = some .directory := by decide +kernel
  exact Disk.walk_of_directory (p := tracker.backupDir) hdir

theorem toward_laden : Toward (laden f) [] (laden f).queue (laden f) :=
  .start orderly_laden fun _ _ => rooted_laden

/-- The backup of the one input loses its values, which its row tells. -/
theorem stripBackups_laden : ∃ run w', Runs stripBackups (laden fun _ => none) (.ok run) w' ∧
    run.compactions = 1 ∧ w'.queue = [] ∧
    (∃ row, w'.host.history.rows[stripping.key]? = some row ∧ History.readRow row =
      .ok { stripping with inputs := [{ name := "x", stripped := true }] }) ∧
    ∃ r, w'.disk.Reads (tracker.backupPath "x") r ∧ r.cursor.Yields r (stock.map emptied) none := by
  obtain ⟨hhandles, hruns⟩ := Tracker.stripBackups_handled (w := laden fun _ => none)
    reached_laden orderly_laden (fun _ _ => plainRow_laden) rfl rfl
  obtain ⟨run, w', hrun⟩ := hruns rfl ⟨rfl, rfl⟩ feasible_laden
  obtain ⟨keys, hsplit, -, -, hlength, hcount, hhandled⟩ := hhandles run w' hrun
  have hone : keys.length = 1 := hlength
  obtain ⟨key, rfl⟩ := List.length_eq_one_iff.mp hone
  obtain ⟨rfl, hqueue⟩ := List.cons.inj hsplit
  have hrow : (laden fun _ => none).host.history.rows[stripping.key]? = some stripping.encode :=
    Std.ExtTreeMap.getElem?_insert_self
  obtain ⟨c, row, hc, hrow', hread, -, hinputs⟩ :=
    hhandled.marks _ List.mem_cons_self _ hrow
  cases hc.symm.trans (readRow_laden hrow)
  have hbacked : Backed (laden fun _ => none) "x" := backed_of_stripsTo stripsTo_laden.choose_spec
  have hmarked : marked (laden fun _ => none) { name := "x" } = { name := "x", stripped := true } :=
    marked_of_backed hbacked
  have hinputs' : stripping.inputs.map (marked (laden fun _ => none)) =
      [{ name := "x", stripped := true }] := congrArg (· :: []) hmarked
  obtain ⟨-, hemptied⟩ := hinputs { name := "x" } List.mem_cons_self
  obtain ⟨r, r', es, hreads, hyields, hreads', hyields'⟩ := hemptied rfl (by rw [hmarked])
  cases hreads.unique reads_backedUp
  cases (SortedTable.Reader.yields_iff.mp hyields).symm.trans
    (SortedTable.Reader.yields_iff.mp yields_stocked)
  exact ⟨run, w', hrun, hcount, hqueue.symm, ⟨row, hrow', hinputs' ▸ hread⟩, r', hreads', hyields'⟩

end Lineage.Sample
