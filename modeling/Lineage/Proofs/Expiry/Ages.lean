import Lineage.Proofs.Expiry.Retries

/-!
# How old rows are when they expire

The limit on ages is a number of milliseconds that is cut to 64 bits, so the rows that expire are
those that are overdue by what is left of it (`expiredRows_overdue`). However a run of expiry ends,
it has deleted some of these, from the first one on, and all of them if it goes through
(`expireHistory_overdue`). A limit that fits into 64 bits is honoured (`expireHistory_spares`); of a
longer one nothing may be left.
-/

namespace Lineage.Tracker

variable {w w' : World} {now : UInt64} {age n : Nat} {rows : List (Bytes × Bytes)}
  {expired : List (Bytes × Compaction)} {c : Compaction} {key value : Bytes}

/-! ## Ages -/

/-- The age of a compaction at a time, in milliseconds. That of one that lies ahead is negative. -/
def ageAt (now : UInt64) (c : Compaction) : Int := (now.toNat : Int) - c.time.toNat

/-- The limit on ages as it is set, in milliseconds. -/
def limitOf (w : World) : Nat := w.tracker.options.maxAge.milliseconds

/-- The rows that are overdue by what is left of the limit in 64 bits. -/
def overdueIn (w : World) (now : UInt64) : List (Bytes × Compaction) :=
  overdue now (limitOf w % UInt64.size) w.host.history.rows.toList

theorem aged?_eq_some {row : Bytes × Bytes} : aged? now age row = some c ↔
    History.readRow row.2 = .ok c ∧ age ≤ now.toNat - c.time.toNat := by
  rw [aged?, Option.filter_eq_some_iff, decide_eq_true_eq]
  cases History.readRow row.2 <;> simp [Except.toOption]

theorem mem_overdue {row : Bytes × Compaction} (h : row ∈ overdue now age rows) :
    ∃ value, (row.1, value) ∈ rows ∧ History.readRow value = .ok row.2 ∧
      age ≤ now.toNat - row.2.time.toNat := by
  obtain ⟨⟨key, value⟩, hmem, hrow⟩ := List.mem_filterMap.mp h
  obtain ⟨c, hc, rfl⟩ := Option.map_eq_some_iff.mp hrow
  exact ⟨value, (List.takeWhile_sublist _).subset hmem, aged?_eq_some.mp hc⟩

theorem expiredRows_overdue (h : expiredRows now (UInt64.ofNat age) rows = .ok expired) :
    expired = overdue now (age % UInt64.size) rows := by
  have hcut : UInt64.ofNat age = UInt64.ofNat (age % UInt64.size) := by
    apply UInt64.toNat_inj.mp
    simp
  rw [hcut, expiredRows_eq_overdue (Nat.mod_lt _ (by decide))] at h
  split at h
  · exact (Except.ok.inj h).symm
  · split at h
    · exact (Except.ok.inj h).symm
    · cases h

/-! ## What a run deletes -/

/-- A run that goes through deletes the rows that are overdue, and one that fails some of them, from
the first one on. -/
theorem expireHistory_overdue {r : Except UpkeepError Expired}
    (h : Runs (expireHistory now) w r w') : ∃ n ≤ (overdueIn w now).length,
      w'.host.history.rows =
        (((overdueIn w now).map Prod.fst).take n).foldl Std.ExtTreeMap.erase w.host.history.rows ∧
      ∀ e, r = .ok e → w.tracker.active = true → n = (overdueIn w now).length := by
  cases expireHistory_steps h with
  | idle off =>
    refine ⟨0, Nat.zero_le _, rfl, fun _ _ hon => ?_⟩
    cases hon.symm.trans off
  | unattached => exact ⟨0, Nat.zero_le _, rfl, nofun⟩
  | refused => exact ⟨0, Nat.zero_le _, rfl, nofun⟩
  | unread => exact ⟨0, Nat.zero_le _, rfl, nofun⟩
  | nothing _ read =>
    have hnone : overdueIn w now = [] := (expiredRows_overdue read).symm
    exact ⟨0, Nat.zero_le _, rfl, fun _ _ _ => by rw [hnone]; rfl⟩
  | @pruned expired names k w₁ w₂ _ r _ read some gone graph removed deleted =>
    have hdue : expired = overdueIn w now := expiredRows_overdue read
    obtain ⟨-, n, hn, hrows, hall⟩ := runs_deleteRows deleted
    have hhistory : w₂.host.history = w.host.history := by
      subst graph
      exact congrArg (fun r => r.2.1) (removeBackups_within removed).1
    rw [List.length_map] at hn hall
    rw [hhistory] at hrows
    subst hdue
    refine ⟨n, hn, hrows, fun e he _ => hall ?_⟩
    cases r with
    | ok u => rfl
    | error f => cases he

/-- A row that is not deleted is kept as it is, and one that is deleted is of a compaction that is
overdue. -/
theorem row_or_overdue {r : Except UpkeepError Expired} (h : Runs (expireHistory now) w r w')
    (hrow : w.host.history.rows[key]? = some value) : w'.host.history.rows[key]? = some value ∨
      ∃ c, History.readRow value = .ok c ∧
        limitOf w % UInt64.size ≤ now.toNat - c.time.toNat := by
  obtain ⟨n, -, hrows, -⟩ := expireHistory_overdue h
  rw [hrows, getElem?_foldl_erase]
  split
  · rename_i hgone
    obtain ⟨row, hdue, rfl⟩ := List.mem_map.mp (List.mem_of_mem_take hgone)
    obtain ⟨value', hvalue, hread, hold⟩ := mem_overdue hdue
    rw [Std.ExtTreeMap.mem_toList_iff_getElem?_eq_some, hrow] at hvalue
    cases hvalue
    exact .inr ⟨row.2, hread, hold⟩
  · exact .inl hrow

/-- Whatever the limit, the rows that a run deletes are the first ones that are overdue by what is
left of it in 64 bits, all of them if the run goes through. If all of the limit is left and it is not
zero, no row is deleted that is younger. -/
theorem expireHistory_spares {r : Except UpkeepError Expired}
    (h : Runs (expireHistory now) w r w') :
    (∃ n ≤ (overdueIn w now).length, w'.host.history.rows =
        (((overdueIn w now).map Prod.fst).take n).foldl Std.ExtTreeMap.erase w.host.history.rows ∧
      ∀ e, r = .ok e → w.tracker.active = true → n = (overdueIn w now).length) ∧
    (limitOf w < UInt64.size → 0 < limitOf w → ∀ (key value : Bytes) (c : Compaction),
      w.host.history.rows[key]? = some value → History.readRow value = .ok c →
        ageAt now c < limitOf w → w'.host.history.rows[key]? = some value) := by
  refine ⟨expireHistory_overdue h, fun hfits hpos key value c hrow hread hyoung => ?_⟩
  refine (row_or_overdue h hrow).resolve_right ?_
  rintro ⟨c', hread', hold⟩
  cases hread.symm.trans hread'
  rw [Nat.mod_eq_of_lt hfits] at hold
  unfold ageAt at hyoung
  omega

end Lineage.Tracker

/-! ## A limit of a month, and one of half a billion years -/

namespace Lineage.Sample

open Tracker (expireHistory expireHistory_spares limitOf ageAt overdueIn)

/-- The compaction that is told of on the day when the first two are a month old. -/
def newest : Compaction := named 20 3000000000 "c" "d"

theorem expireHistory_monthly :
    limitOf (aging .quiet) < UInt64.size ∧ 0 < limitOf (aging .quiet) ∧
    (aging .quiet).host.history.rows[([3] : Bytes)]? = some newest.encode ∧
    History.readRow newest.encode = .ok newest ∧
    ageAt 3000000000 newest < limitOf (aging .quiet) ∧
    ∃ e w', Runs (expireHistory 3000000000) (aging .quiet) (.ok e) w' ∧
      w'.host.history.rows = ([[1], [2]] : List Bytes).foldl Std.ExtTreeMap.erase
        (aging .quiet).host.history.rows ∧
      w'.host.history.rows[([3] : Bytes)]? = some newest.encode := by
  obtain ⟨hfits, hpos, hrow, hread, hyoung, hdue, hok⟩ :
      limitOf (aging .quiet) < UInt64.size ∧ 0 < limitOf (aging .quiet) ∧
      (aging .quiet).host.history.rows[([3] : Bytes)]? = some newest.encode ∧
      History.readRow newest.encode = .ok newest ∧
      ageAt 3000000000 newest < limitOf (aging .quiet) ∧
      (overdueIn (aging .quiet) 3000000000).map Prod.fst = [[1], [2]] ∧
      ((expireHistory 3000000000).run.run (aging .quiet)).1.toOption.isSome = true := by
    decide +kernel
  obtain ⟨e, hok⟩ := Option.isSome_iff_exists.mp hok
  have hrun := runs_of_toOption hok
  obtain ⟨⟨n, -, hrows, hall⟩, hkept⟩ := expireHistory_spares hrun
  have hlength : (overdueIn (aging .quiet) 3000000000).length = 2 := by
    rw [← List.length_map Prod.fst, hdue]
    rfl
  rw [hdue, hall e rfl active_aging, hlength] at hrows
  exact ⟨hfits, hpos, hrow, hread, hyoung, e, _, hrun, hrows,
    hkept hfits hpos _ _ _ hrow hread hyoung⟩

/-- A tracker that is to keep its history for 2^64 milliseconds. -/
def lasting : World :=
  { aging .quiet with
    tracker := { (aging .quiet).tracker with
      options := { (aging .quiet).tracker.options with
        maxAge := ⟨18446744073709551, 616000000, by decide⟩ } } }

/-- Nothing is left of such a limit, and a row expires as soon as it is there. -/
theorem expireHistory_lasting :
    limitOf lasting = UInt64.size ∧
    lasting.host.history.rows[([3] : Bytes)]? = some newest.encode ∧
    History.readRow newest.encode = .ok newest ∧ ageAt 3000000000 newest < limitOf lasting ∧
    ∃ e w', Runs (expireHistory 3000000000) lasting (.ok e) w' ∧ e.compactions = 3 ∧
      w'.host.history.rows[([3] : Bytes)]? = none := by
  obtain ⟨hlimit, hrow, hread, hyoung, hok, hgone⟩ :
      limitOf lasting = UInt64.size ∧
      lasting.host.history.rows[([3] : Bytes)]? = some newest.encode ∧
      History.readRow newest.encode = .ok newest ∧ ageAt 3000000000 newest < limitOf lasting ∧
      ((expireHistory 3000000000).run.run lasting).1.toOption.map (·.compactions) = some 3 ∧
      ((expireHistory 3000000000).run.run lasting).2.host.history.rows[([3] : Bytes)]? = none := by
    decide +kernel
  obtain ⟨e, hok, he⟩ := Option.map_eq_some_iff.mp hok
  exact ⟨hlimit, hrow, hread, hyoung, e, _, runs_of_toOption hok, he, hgone⟩

end Lineage.Sample
