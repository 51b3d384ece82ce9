import Lineage.Proofs.Quiet
import Lineage.Proofs.Recovery
import Lineage.Proofs.Upkeep

/-!
# What expires

The rows that expire are the longest run of rows, from the first one on, that can be read and are
old enough (`overdue`); the row behind them decides whether the run goes on at all
(`expiredRows_eq_overdue`). Rows that are deleted come off the front, and the others stay overdue
(`overdue_drop`).
-/

namespace Lineage.Tracker

open World (onDisk onHost update)

variable {now : UInt64} {age n : Nat} {row : Bytes × Bytes} {rows : List (Bytes × Bytes)}
  {c : Compaction} {w w' : World}

/-! ## Rows that are old enough -/

/-- The compaction of a row, if the row can be read and is of an age. What lies ahead has none. -/
def aged? (now : UInt64) (age : Nat) (row : Bytes × Bytes) : Option Compaction :=
  (History.readRow row.2).toOption.filter fun c => age ≤ now.toNat - c.time.toNat

/-- The longest run of rows, from the first one on, that can be read and are of an age. -/
def overdue (now : UInt64) (age : Nat) (rows : List (Bytes × Bytes)) : List (Bytes × Compaction) :=
  (rows.takeWhile fun row => (aged? now age row).isSome).filterMap fun row =>
    (aged? now age row).map (row.1, ·)

/-- The first row that cannot be read or is younger. -/
def nextRow? (now : UInt64) (age : Nat) (rows : List (Bytes × Bytes)) : Option (Bytes × Bytes) :=
  rows.find? fun row => (aged? now age row).isNone

theorem overdue_cons (h : aged? now age row = some c) :
    overdue now age (row :: rows) = (row.1, c) :: overdue now age rows := by
  rw [overdue, List.takeWhile_cons_of_pos (by rw [h]; rfl), List.filterMap_cons_some (by rw [h]; rfl)]
  rfl

theorem overdue_eq_nil (h : aged? now age row = none) : overdue now age (row :: rows) = [] := by
  rw [overdue, List.takeWhile_cons_of_neg (by rw [h]; exact Bool.false_ne_true)]
  rfl

theorem nextRow?_cons (h : aged? now age row = some c) :
    nextRow? now age (row :: rows) = nextRow? now age rows :=
  List.find?_cons_of_neg (by rw [h]; exact Bool.false_ne_true)

theorem nextRow?_eq_head (h : aged? now age row = none) :
    nextRow? now age (row :: rows) = some row :=
  List.find?_cons_of_pos (by rw [h]; rfl)

/-- Expiry looks at the rows that are overdue and at the one behind them. -/
theorem expiredRows_eq_overdue (hage : age < UInt64.size) :
    expiredRows now (UInt64.ofNat age) rows = match nextRow? now age rows with
      | none => .ok (overdue now age rows)
      | some row => match History.readRow row.2 with
        | .ok _ => .ok (overdue now age rows)
        | .error e => .error (.row row.1 e) := by
  induction rows with
  | nil => rfl
  | cons row rows ih =>
    have hlimit : (UInt64.ofNat age).toNat = age := UInt64.toNat_ofNat_of_lt' hage
    rw [expiredRows]
    cases hread : History.readRow row.2 with
    | error e =>
      have hnone : aged? now age row = none := by rw [aged?, hread]; rfl
      rw [nextRow?_eq_head hnone]
      simp only [hread]
      rfl
    | ok c =>
      by_cases hold : age ≤ now.toNat - c.time.toNat
      · have hsome : aged? now age row = some c := by
          rw [aged?, hread]
          exact Option.filter_eq_some_iff.mpr ⟨rfl, decide_eq_true hold⟩
        have hnot : younger now (UInt64.ofNat age) c.time = false := by
          rw [younger, hlimit]
          exact decide_eq_false (Nat.not_lt.mpr hold)
        rw [nextRow?_cons hsome, overdue_cons hsome]
        simp only [Except.mapError, bind, Except.bind, hnot, Bool.false_eq_true, if_false, ih]
        cases nextRow? now age rows with
        | none => rfl
        | some next =>
          dsimp only
          cases History.readRow next.2 <;> rfl
      · have hnone : aged? now age row = none := by
          rw [aged?, hread]
          exact Option.filter_eq_none_iff.mpr fun a ha => by cases ha; simpa using hold
        have hyoung : younger now (UInt64.ofNat age) c.time = true := by
          rw [younger, hlimit]
          exact decide_eq_true (Nat.not_le.mp hold)
        rw [nextRow?_eq_head hnone, overdue_eq_nil hnone]
        simp only [hread, Except.mapError, bind, Except.bind, hyoung, if_true]
        rfl

/-! ## Rows that come off the front -/

theorem keys_take_overdue (h : n ≤ (overdue now age rows).length) :
    ((overdue now age rows).map Prod.fst).take n = (rows.map Prod.fst).take n := by
  induction rows generalizing n with
  | nil => rfl
  | cons row rows ih =>
    cases n with
    | zero => rfl
    | succ n =>
      cases hrow : aged? now age row with
      | none =>
        rw [overdue_eq_nil hrow] at h
        exact absurd h (Nat.not_succ_le_zero n)
      | some c =>
        rw [overdue_cons hrow] at h ⊢
        rw [List.map_cons, List.map_cons, List.take_succ_cons, List.take_succ_cons,
          ih (Nat.le_of_succ_le_succ h)]

/-- Without the first of the rows that are overdue, the others are, and the same row is behind them. -/
theorem overdue_drop (h : n ≤ (overdue now age rows).length) :
    overdue now age (rows.drop n) = (overdue now age rows).drop n ∧
      nextRow? now age (rows.drop n) = nextRow? now age rows := by
  induction rows generalizing n with
  | nil =>
    rw [List.drop_nil]
    exact ⟨(List.drop_nil).symm, rfl⟩
  | cons row rows ih =>
    cases n with
    | zero => exact ⟨rfl, rfl⟩
    | succ n =>
      cases hrow : aged? now age row with
      | none =>
        rw [overdue_eq_nil hrow] at h
        exact absurd h (Nat.not_succ_le_zero n)
      | some c =>
        rw [overdue_cons hrow] at h ⊢
        rw [nextRow?_cons hrow]
        exact ih (Nat.le_of_succ_le_succ h)

theorem nodup_keys_toList {table : Rows} : (table.toList.map Prod.fst).Nodup := by
  rw [Std.ExtTreeMap.map_fst_toList_eq_keys]
  exact Std.ExtTreeMap.nodup_keys

/-- Without its first rows, a table holds the others in the same order. -/
theorem toList_foldl_erase {table : Rows} (n : Nat) :
    (((table.toList.map Prod.fst).take n).foldl Std.ExtTreeMap.erase table).toList =
      table.toList.drop n := by
  have hasc : table.toList.Pairwise fun a b => compare a.1 b.1 = .lt :=
    Std.ExtTreeMap.ordered_keys_toList
  refine eq_of_ascending Prod.fst Std.ExtTreeMap.ordered_keys_toList
    (hasc.sublist (List.drop_sublist n _)) fun row => ?_
  rw [Std.ExtTreeMap.mem_toList_iff_getElem?_eq_some, getElem?_foldl_erase]
  split
  · rename_i hgone
    refine iff_of_false nofun fun hleft => ?_
    have hkey : row.1 ∈ (table.toList.map Prod.fst).drop n := by
      rw [← List.map_drop]
      exact List.mem_map_of_mem hleft
    exact List.disjoint_take_drop nodup_keys_toList (Nat.le_refl n) hgone hkey
  · rename_i hkept
    rw [← Std.ExtTreeMap.mem_toList_iff_getElem?_eq_some]
    refine ⟨fun hrow => ?_, List.mem_of_mem_drop⟩
    rw [← List.take_append_drop n table.toList, List.mem_append] at hrow
    refine hrow.resolve_left fun hgone => hkept ?_
    rw [← List.map_take]
    exact List.mem_map_of_mem hgone

/-! ## What one run takes away -/

/-- The compactions that have expired by a time. -/
def expiredIn (w : World) (now : UInt64) : List (Bytes × Compaction) :=
  overdue now w.tracker.options.maxAge.milliseconds w.host.history.rows.toList

/-- The row behind those that have expired cannot be read. -/
def Unreadable (w : World) (now : UInt64) : Prop :=
  ∃ row e, nextRow? now w.tracker.options.maxAge.milliseconds w.host.history.rows.toList = some row ∧
    History.readRow row.2 = .error e

/-- The files from which expiry sets out. -/
def inputsOf (expired : List (Bytes × Compaction)) : List String :=
  expired.flatMap fun row => row.2.inputNames

/-- The files that go with some compactions. -/
def goneWith (w : World) (expired : List (Bytes × Compaction)) : Names :=
  (w.tracker.graph.expire (inputsOf expired)).1

section
variable {expired : List (Bytes × Compaction)} {e : UpkeepError}
  (hage : w.tracker.options.maxAge.milliseconds < UInt64.size)

include hage

theorem eq_expiredIn
    (h : expiredRows now (ageLimit w.tracker.options) w.host.history.rows.toList = .ok expired) :
    expired = expiredIn w now ∧ ¬ Unreadable w now := by
  rw [ageLimit, expiredRows_eq_overdue hage] at h
  rw [Unreadable]
  cases hnext : nextRow? now w.tracker.options.maxAge.milliseconds w.host.history.rows.toList with
  | none =>
    rw [hnext] at h
    exact ⟨(Except.ok.inj h).symm, fun ⟨_, _, hrow, _⟩ => nomatch hrow⟩
  | some row =>
    rw [hnext] at h
    dsimp only at h
    split at h
    · rename_i hread
      refine ⟨(Except.ok.inj h).symm, fun ⟨_, _, hrow, herror⟩ => ?_⟩
      cases hrow
      cases hread.symm.trans herror
    · cases h

theorem unreadable_of_error
    (h : expiredRows now (ageLimit w.tracker.options) w.host.history.rows.toList = .error e) :
    Unreadable w now := by
  rw [ageLimit, expiredRows_eq_overdue hage] at h
  rw [Unreadable]
  cases hnext : nextRow? now w.tracker.options.maxAge.milliseconds w.host.history.rows.toList with
  | none =>
    rw [hnext] at h
    cases h
  | some row =>
    rw [hnext] at h
    dsimp only at h
    split at h
    · cases h
    · rename_i hread
      exact ⟨row, _, rfl, hread⟩

end

section
variable {k : Nat} {keys : List Bytes} {names : List String}

theorem removeBackups_quiet (hq : w.Quiet) (h : Runs (removeBackups names) w (.ok k) w') :
    w'.Quiet := by
  have hdisk := (removeBackups_within h).2.quiet hq.disk
  obtain ⟨d, rfl⟩ := exists_disk_of_removeBackups h
  exact ⟨hdisk, hq.history⟩

theorem deleteRows_quiet {r : Except UpkeepError Unit} (hq : w.Quiet)
    (h : Runs (deleteRows keys) w r w') : r = .ok () ∧ w'.Quiet := by
  induction keys generalizing w with
  | nil =>
    obtain ⟨rfl, rfl⟩ := runs_pure.mp h
    exact ⟨rfl, hq⟩
  | cons key rest ih =>
    rcases runs_bind.mp h with ⟨u, w₁, hdelete, hrest⟩ | ⟨e, hdelete, rfl⟩
    · exact ih (deleteRow_quiet hq hdelete).2 hrest
    · cases (deleteRow_quiet hq hdelete).1

end

/-- Those of some compactions that still have their rows. -/
def stillIn (w : World) (expired : List (Bytes × Compaction)) : List (Bytes × Compaction) :=
  expired.filter fun row => w.host.history.rows.contains row.1

theorem keys_expiredIn : (expiredIn w now).map Prod.fst =
    (w.host.history.rows.toList.map Prod.fst).take (expiredIn w now).length := by
  rw [expiredIn, ← keys_take_overdue (Nat.le_refl _), ← List.length_map Prod.fst, List.take_length]

theorem nodup_keys_expiredIn : ((expiredIn w now).map Prod.fst).Nodup := by
  rw [keys_expiredIn]
  exact nodup_keys_toList.sublist (List.take_sublist _ _)

section
variable {w₁ : World}
  (hrows : w₁.host.history.rows =
    (((expiredIn w now).map Prod.fst).take n).foldl Std.ExtTreeMap.erase w.host.history.rows)

include hrows

/-- The rows behind those that were deleted are the ones that are still there. -/
theorem stillIn_eq_drop : stillIn w₁ (expiredIn w now) = (expiredIn w now).drop n := by
  have hcontains (key : Bytes) : w₁.host.history.rows.contains key = true ↔
      key ∉ ((expiredIn w now).map Prod.fst).take n ∧
        w.host.history.rows.contains key = true := by
    simp only [Std.ExtTreeMap.contains_eq_isSome_getElem?, hrows, getElem?_foldl_erase]
    split <;> simp [*]
  have hold : ∀ row ∈ expiredIn w now, w.host.history.rows.contains row.1 = true := by
    intro row hrow
    have hkey : row.1 ∈ (expiredIn w now).map Prod.fst := List.mem_map_of_mem hrow
    rw [keys_expiredIn, Std.ExtTreeMap.map_fst_toList_eq_keys] at hkey
    exact Std.ExtTreeMap.mem_iff_contains.mp (Std.ExtTreeMap.mem_keys.mp (List.mem_of_mem_take hkey))
  rw [stillIn]
  conv_lhs => rw [← List.take_append_drop n (expiredIn w now)]
  rw [List.filter_append, List.filter_eq_nil_iff.mpr, List.filter_eq_self.mpr, List.nil_append]
  · intro row hrow
    refine (hcontains row.1).mpr ⟨fun hgone => ?_, hold row (List.mem_of_mem_drop hrow)⟩
    have hkey : row.1 ∈ ((expiredIn w now).map Prod.fst).drop n := by
      rw [← List.map_drop]
      exact List.mem_map_of_mem hrow
    exact List.disjoint_take_drop nodup_keys_expiredIn (Nat.le_refl n) hgone hkey
  · intro row hrow hthere
    refine ((hcontains row.1).mp hthere).1 ?_
    rw [← List.map_take]
    exact List.mem_map_of_mem hrow

/-- By the same time, the same compactions have expired but for those whose rows were deleted. -/
theorem expiredIn_eq_drop (hn : n ≤ (expiredIn w now).length)
    (ho : w₁.tracker.options = w.tracker.options) :
    expiredIn w₁ now = (expiredIn w now).drop n ∧ (Unreadable w₁ now ↔ Unreadable w now) := by
  have hdropped : w₁.host.history.rows.toList = w.host.history.rows.toList.drop n := by
    rw [hrows, expiredIn, keys_take_overdue hn, toList_foldl_erase]
  have hdrop := overdue_drop hn
  rw [expiredIn, Unreadable, Unreadable, ho, hdropped, hdrop.1, hdrop.2]
  exact ⟨rfl, Iff.rfl⟩

end

/-- No removal of a file is refused. -/
def Removing (w : World) : Prop := ∀ k, w.disk.outage k .remove = none

/-- Compactions are out of the graph of a world, and rows of the first of them are deleted. Of the
backups, only those of the files that went with them may be gone, and these are gone if nothing kept
them from being removed. -/
structure Pruned (sure : Prop) (w : World) (expired : List (Bytes × Compaction)) (n : Nat)
    (w' : World) : Prop where
  tracker : w'.tracker =
    { w.tracker with graph := (w.tracker.graph.expire (inputsOf expired)).2 }
  rows : w'.host.history.rows =
    ((expired.map Prod.fst).take n).foldl Std.ExtTreeMap.erase w.host.history.rows
  file : w'.host.history.file? = w.host.history.file?
  shed : Disk.ShedsAmong ((goneWith w expired).toList.map w.tracker.backupPath) w.disk w'.disk
  gone : sure → ∀ p ∈ (goneWith w expired).toList.map w.tracker.backupPath, w'.disk.isFile p = false
  content : ∀ id, ¬ w.host.history.file? = some id → w'.disk.content id = w.disk.content id

namespace Pruned

variable {sure : Prop} {expired : List (Bytes × Compaction)} {names : Names} {w₁ w₂ : World}

theorem cleared (h : Pruned sure w expired n w') (hs : sure) :
    Disk.Cleared ((goneWith w expired).toList.map w.tracker.backupPath) w.disk w'.disk :=
  ⟨h.shed, h.gone hs⟩

/-- Which operations are refused later is no matter. -/
theorem of_calm (h : Pruned sure w expired n w₁) (hcalm : w₂.calm = w₁.calm) :
    Pruned sure w expired n w₂ := by
  have hnodes : w₂.disk.nodes = w₁.disk.nodes := congrArg (fun w => w.disk.nodes) hcalm
  have hcontent (id : FileId) : w₂.disk.content id = w₁.disk.content id :=
    congrArg (fun w => w.disk.content id) hcalm
  refine ⟨(tracker_of_calm hcalm).trans h.tracker, ?_, ?_, h.shed.congr rfl hnodes,
    fun hs p hp => (Disk.isFile_eq (Disk.at?_of_nodes hnodes)).trans (h.gone hs p hp),
    fun id hid => (hcontent id).trans (h.content id hid)⟩
  · rw [history_of_calm hcalm, h.rows]
  · rw [history_of_calm hcalm, h.file]

/-- Rows are deleted where the last run stopped. -/
theorem delete {r : Except UpkeepError Unit} (h : Pruned sure w expired n w₁)
    (hn : n ≤ expired.length) (hr : Runs (deleteRows ((expired.drop n).map Prod.fst)) w₁ r w₂) :
    ∃ m ≤ expired.length, Pruned sure w expired m w₂ ∧ (r = .ok () → m = expired.length) := by
  obtain ⟨honly, k, hk, hrows, hok⟩ := runs_deleteRows hr
  rw [List.length_map, List.length_drop] at hk hok
  refine ⟨n + k, by omega, ⟨honly.tracker.trans h.tracker, ?_, honly.file.trans h.file,
    h.shed.congr rfl honly.disk.nodes,
    fun hs p hp => (Disk.isFile_eq (Disk.at?_of_nodes honly.disk.nodes)).trans (h.gone hs p hp),
    fun id hid => ?_⟩, fun hr => ?_⟩
  · rw [hrows, h.rows, List.take_add, List.foldl_append, List.map_drop]
  · exact (honly.disk.content id (h.file ▸ hid)).trans (h.content id hid)
  · have := hok hr
    omega

/-- At first, what expired goes out of the graph, and backups are removed. -/
theorem start {k : Nat} {w₀ : World} (hcalm : w₀.calm = w.calm) (hsure : sure → Removing w₀)
    (hr : Runs (removeBackups (goneWith w expired).toList) { w₀.later with
      tracker := { w.tracker with graph := (w.tracker.graph.expire (inputsOf expired)).2 } }
      (.ok k) w₁) : Pruned sure w expired 0 w₁ := by
  have hhistory := history_of_calm hcalm
  have hnodes : w₀.disk.nodes = w.disk.nodes := congrArg (fun w => w.disk.nodes) hcalm
  have hcontent (id : FileId) : w₀.disk.content id = w.disk.content id :=
    congrArg (fun w => w.disk.content id) hcalm
  have hcontents := contents_of_removeBackups hr
  have hshed := (sheds_removeBackups hr).congr hnodes.symm rfl
  have hgone (hs : sure) := (cleared_removeBackups hr (hsure hs)).gone
  obtain ⟨d, rfl⟩ := exists_disk_of_removeBackups hr
  refine ⟨rfl, congrArg Table.rows hhistory, congrArg Table.file? hhistory, hshed, hgone,
    fun id _ => ?_⟩
  rw [← hcontent id, Disk.content, hcontents]
  rfl

/-- Files that went once are not there to go again. -/
theorem expire_again (h : Pruned sure w expired n w₁) {more : List (Bytes × Compaction)}
    (hmore : ∀ row ∈ more, row ∈ expired) :
    goneWith w₁ more = ∅ ∧ (w₁.tracker.graph.expire (inputsOf more)).2 = w₁.tracker.graph := by
  have hgraph : w₁.tracker.graph = w.tracker.graph.without (goneWith w expired) := by
    rw [h.tracker]
    rfl
  have hempty : goneWith w₁ more = ∅ := by
    refine Graph.expiring_eq_empty fun m hm => ?_
    obtain ⟨row, hrow, hm⟩ := List.mem_flatMap.mp hm
    rw [hgraph, ← Bool.not_eq_true, Graph.contains_without]
    rintro ⟨hthere, hnot⟩
    exact hnot (Graph.mem_expiring_of_mem (List.mem_flatMap.mpr ⟨row, hmore row hrow, hm⟩) hthere)
  have hunion : goneWith w expired ∪ ∅ = goneWith w expired :=
    Std.ExtTreeSet.ext_mem fun m => by simp
  refine ⟨hempty, ?_⟩
  change w₁.tracker.graph.without (goneWith w₁ more) = w₁.tracker.graph
  rw [hempty, hgraph, Graph.without_without, hunion]

/-- Later, nothing goes out of the graph any more, and no backup is removed. -/
theorem again {k : Nat} {w₁ : World} {more : List (Bytes × Compaction)}
    (h : Pruned sure w expired n w₁) (hmore : ∀ row ∈ more, row ∈ expired)
    (hr : Runs (removeBackups (goneWith w₁ more).toList) { w₁.later with
      tracker := { w₁.tracker with graph := (w₁.tracker.graph.expire (inputsOf more)).2 } }
      (.ok k) w₂) : Pruned sure w expired n w₂ := by
  obtain ⟨hempty, hgraph⟩ := h.expire_again hmore
  have hnone : (∅ : Names).toList = [] := rfl
  rw [hempty, hnone, hgraph] at hr
  refine h.of_calm ?_
  rw [(runs_pure.mp hr).2]
  rfl

end Pruned

end Lineage.Tracker
