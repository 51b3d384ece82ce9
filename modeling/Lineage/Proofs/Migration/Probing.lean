import Lineage.Proofs.Migration.Runs
import Lineage.Proofs.Quiet
import Lineage.Proofs.Recovery

/-!
# Where compactions from text logs land

A compaction `Lands` at the first time from its own on at which its key is free or holds it already.
Each time that is passed over has a row of the same sequence number, so a call ends within one more
round than there are such rows (`runs_migrateWithin`). What has landed is met again where it is,
whichever of the others landed with it, so that compactions may be stored in parts
(`migrateAll_resumes`).
-/

namespace Lineage

open World (onDisk onHost update)

/-! ## Keys of one sequence number -/

/-- Whether a key is made of a sequence number and some time. -/
def RowKey.hasSequence (sequence : UInt64) (key : Bytes) : Bool :=
  (parse? key).any fun p => p.1 = sequence ∧ encode p.1 p.2 = key

theorem RowKey.hasSequence_iff {sequence : UInt64} {key : Bytes} :
    hasSequence sequence key = true ↔ ∃ time, key = encode sequence time := by
  rw [hasSequence, Option.any_eq_true]
  constructor
  · rintro ⟨⟨_, time⟩, -, hp⟩
    obtain ⟨rfl, hkey⟩ := of_decide_eq_true hp
    exact ⟨time, hkey.symm⟩
  · rintro ⟨time, hkey⟩
    rw [hkey]
    exact ⟨_, parse_encode, decide_eq_true ⟨rfl, rfl⟩⟩

/-- The compaction with another time. -/
def Compaction.timed (c : Compaction) (t : UInt64) : Compaction := { c with time := t }

namespace Tracker

variable {rows rows' : Rows} {c : Compaction} {cs ds : List Compaction} {w w' : World} {n : Nat}

/-- The keys of the rows with a sequence number. -/
def sharing (rows : Rows) (sequence : UInt64) : List Bytes :=
  rows.keys.filter (RowKey.hasSequence sequence)

/-- Of the rows with a compaction's sequence number, the keys of those that are not earlier. -/
def ahead (rows : Rows) (c : Compaction) : List Bytes :=
  (sharing rows c.sequence).filter fun k => (RowKey.parse? k).any fun p => c.time ≤ p.2

theorem key_mem_ahead (h : c.key ∈ rows) : c.key ∈ ahead rows c := by
  refine List.mem_filter.mpr ⟨List.mem_filter.mpr ⟨Std.ExtTreeMap.mem_keys.mpr h, ?_⟩, ?_⟩
  · exact RowKey.hasSequence_iff.mpr ⟨c.time, rfl⟩
  · rw [Compaction.key, RowKey.parse_encode]
    exact decide_eq_true (UInt64.le_refl _)

theorem toNat_succ {t : UInt64} (h : t.toNat + 1 < UInt64.size) : (t + 1).toNat = t.toNat + 1 := by
  rw [UInt64.toNat_add]
  exact Nat.mod_eq_of_lt h

/-- A time that is passed over leaves fewer rows ahead. -/
theorem length_ahead_lt (h : c.key ∈ rows) (hlt : c.time.toNat + 1 < UInt64.size) :
    (ahead rows { c with time := c.time + 1 }).length < (ahead rows c).length := by
  have hnext := toNat_succ hlt
  have hfilter : ahead rows { c with time := c.time + 1 } =
      (ahead rows c).filter fun k => (RowKey.parse? k).any fun p => c.time + 1 ≤ p.2 := by
    rw [ahead, ahead, List.filter_filter]
    refine List.filter_congr fun k _ => ?_
    cases RowKey.parse? k with
    | none => rfl
    | some p =>
      simp only [Option.any_some, ← Bool.decide_and, decide_eq_decide, UInt64.le_iff_toNat_le, hnext]
      omega
  rw [hfilter]
  refine List.length_filter_lt_length_iff_exists.mpr ⟨c.key, key_mem_ahead h, ?_⟩
  rw [Compaction.key, RowKey.parse_encode]
  change ¬ decide (c.time + 1 ≤ c.time) = true
  rw [decide_eq_true_eq, UInt64.le_iff_toNat_le]
  omega

/-! ## Rounds -/

/-- Stores a compaction from a text log within a number of rounds, each being one look at the
history; tells nothing if they do not suffice. -/
def migrateWithin : (rounds : Nat) → Compaction → World.Action Error (Option Bool)
  | 0, _ => return none
  | rounds + 1, c => do
    match ← onHost .table (Host.getRow c.key) with
    | none =>
      onHost .table (Host.putRow c.key c.encode)
      return some true
    | some row =>
      if row = c.encode then return some false
      else if c.time.toNat + 1 < UInt64.size then
        migrateWithin rounds { c with time := c.time + 1 }
      else throw .timeOverflow

/-- A call is over after one more round than there are rows ahead. -/
theorem runs_migrateWithin {r : Except Error Bool} (hn : (ahead w.host.history.rows c).length ≤ n)
    (h : Runs (migrate c) w r w') : Runs (migrateWithin (n + 1) c) w (r.map some) w' := by
  induction c using migrate.induct generalizing w n with
  | case1 c ih =>
    rw [migrate] at h
    rw [migrateWithin]
    rcases runs_bind.mp h with ⟨row, w₁, hget, h⟩ | ⟨e, hget, rfl⟩
    · refine runs_bind.mpr (.inl ⟨row, w₁, hget, ?_⟩)
      obtain ⟨hasked, hrow⟩ := runs_getRow hget
      replace hrow := hrow row rfl
      cases row with
      | none =>
        rcases runs_bind.mp h with ⟨_, w₂, hput, h⟩ | ⟨e, hput, rfl⟩
        · obtain ⟨rfl, rfl⟩ := runs_pure.mp h
          exact runs_bind.mpr (.inl ⟨_, _, hput, runs_pure.mpr ⟨rfl, rfl⟩⟩)
        · exact runs_bind.mpr (.inr ⟨e, hput, rfl⟩)
      | some row =>
        dsimp only at h ⊢
        split at h
        · rename_i heq
          obtain ⟨rfl, rfl⟩ := runs_pure.mp h
          rw [if_pos heq]
          exact runs_pure.mpr ⟨rfl, rfl⟩
        · rename_i hne
          rw [if_neg hne]
          split at h
          · rename_i hlt
            have hmem : c.key ∈ w.host.history.rows :=
              Std.ExtTreeMap.mem_iff_isSome_getElem?.mpr (hrow ▸ rfl)
            have hfewer := length_ahead_lt hmem hlt
            rw [if_pos hlt]
            obtain ⟨m, rfl⟩ : ∃ m, n = m + 1 := ⟨n - 1, by omega⟩
            refine ih hlt ?_ h
            rw [hasked.history]
            omega
          · rename_i hlt
            obtain ⟨rfl, rfl⟩ := runs_throw.mp h
            rw [if_neg hlt]
            exact runs_throw.mpr ⟨rfl, rfl⟩
    · exact runs_bind.mpr (.inr ⟨e, hget, rfl⟩)

/-! ## Landing -/

/-- The first time of a compaction, from its own on, at which its key is free or holds it. -/
structure Lands (rows : Rows) (c : Compaction) (t : UInt64) : Prop where
  earliest : c.time ≤ t
  fits : ∀ row, rows[(c.timed t).key]? = some row → row = (c.timed t).encode
  passed : ∀ s, c.time ≤ s → s < t →
    ∃ row, rows[(c.timed s).key]? = some row ∧ row ≠ (c.timed s).encode

theorem Lands.self (h : ∀ row, rows[c.key]? = some row → row = c.encode) : Lands rows c c.time where
  earliest := UInt64.le_refl _
  fits := h
  passed _ hs hlt := absurd hlt (UInt64.not_lt.mpr hs)

theorem Lands.later {row : Bytes} {t : UInt64} (h : Lands rows (c.timed (c.time + 1)) t)
    (hrow : rows[c.key]? = some row) (hne : row ≠ c.encode)
    (hlt : c.time.toNat + 1 < UInt64.size) : Lands rows c t where
  earliest := by
    have hle := h.earliest
    rw [UInt64.le_iff_toNat_le, Compaction.timed, toNat_succ hlt] at hle
    rw [UInt64.le_iff_toNat_le]
    omega
  fits := h.fits
  passed s hs hst := by
    by_cases heq : s = c.time
    · subst heq
      exact ⟨row, hrow, hne⟩
    · refine h.passed s ?_ hst
      rw [UInt64.le_iff_toNat_le] at hs ⊢
      rw [Compaction.timed, toNat_succ hlt]
      rw [← UInt64.toNat_inj] at heq
      omega

/-- There is one first time. -/
theorem Lands.unique {t t' : UInt64} (h : Lands rows c t) (h' : Lands rows c t') : t = t' := by
  have hle {t t' : UInt64} (h : Lands rows c t) (h' : Lands rows c t') : t ≤ t' := by
    refine UInt64.not_lt.mp fun hlt => ?_
    obtain ⟨row, hrow, hne⟩ := h.passed t' h'.earliest hlt
    exact hne (h'.fits row hrow)
  exact UInt64.le_antisymm (hle h h') (hle h' h)

theorem insert_eq_self {k v : Bytes} (h : rows[k]? = some v) : rows.insert k v = rows := by
  ext1 j
  rw [Std.ExtTreeMap.getElem?_insert]
  split
  · rename_i hj
    rw [← Std.compare_eq_iff_eq.mp hj, h]
  · rfl

/-- What a call that goes through does. -/
theorem lands_of_migrate {b : Bool} (h : Runs (migrate c) w (.ok b) w') :
    ∃ t, Lands w.host.history.rows c t ∧
      w'.host.history.rows = w.host.history.rows.insert (c.timed t).key (c.timed t).encode ∧
      (b = true ↔ w.host.history.rows[(c.timed t).key]? = none) := by
  induction c using migrate.induct generalizing w with
  | case1 c ih =>
    rw [migrate] at h
    obtain ⟨row, w₁, hget, h⟩ := runs_bind_ok.mp h
    obtain ⟨hasked, hrow⟩ := runs_getRow hget
    replace hrow := hrow row rfl
    rw [← hasked.history] at hrow ⊢
    cases row with
    | none =>
      obtain ⟨_, w₂, hput, h⟩ := runs_bind_ok.mp h
      obtain ⟨⟨⟩, rfl⟩ := runs_pure.mp h
      obtain ⟨-, ⟨-, hrows⟩ | ⟨⟨e, he⟩, -⟩⟩ := runs_putRow hput
      · refine ⟨c.time, .self fun row hr => ?_, hrows, fun _ => hrow.symm, fun _ => rfl⟩
        rw [← hrow] at hr
        cases hr
      · cases he
    | some row =>
      dsimp only at h
      split at h
      · rename_i heq
        subst heq
        obtain ⟨⟨⟩, rfl⟩ := runs_pure.mp h
        refine ⟨c.time, .self fun row hr => ?_, (insert_eq_self hrow.symm).symm,
          fun hb => absurd hb Bool.false_ne_true, fun hnone => ?_⟩
        · exact Option.some.inj (hr.symm.trans hrow.symm)
        · cases hrow.trans hnone
      · rename_i hne
        split at h
        · rename_i hlt
          obtain ⟨t, hl, hrest⟩ := ih hlt h
          exact ⟨t, hl.later hrow.symm hne hlt, hrest⟩
        · cases (runs_throw.mp h).1

/-! ## Calls in which nothing is refused -/

theorem migrate_quiet {r : Except Error Bool} (hq : w.Quiet) (h : Runs (migrate c) w r w') :
    w'.Quiet ∧ ((∃ b, r = .ok b) ∨ settle w.host.history.rows c = none) := by
  induction c using migrate.induct generalizing w with
  | case1 c ih =>
    rw [migrate] at h
    rcases runs_bind.mp h with ⟨row, w₁, hget, h⟩ | ⟨e, hget, -⟩
    · obtain ⟨hrow, rfl⟩ := hq.runs_getRow.mp hget
      replace hrow := Except.ok.inj hrow
      cases row with
      | none =>
        rcases runs_bind.mp h with ⟨_, w₂, hput, h⟩ | ⟨e, hput, -⟩
        · obtain ⟨rfl, rfl⟩ := runs_pure.mp h
          exact ⟨(putRow_quiet hq hput).2, .inl ⟨_, rfl⟩⟩
        · cases (putRow_quiet hq hput).1
      | some row =>
        dsimp only at h
        split at h
        · obtain ⟨rfl, rfl⟩ := runs_pure.mp h
          exact ⟨hq, .inl ⟨_, rfl⟩⟩
        · rename_i hne
          rw [settle_other hrow.symm hne]
          split at h
          · rename_i hlt
            rw [if_pos hlt]
            exact ih hlt hq h
          · rename_i hlt
            obtain ⟨-, rfl⟩ := runs_throw.mp h
            exact ⟨hq, .inr (if_neg hlt)⟩
    · cases (hq.runs_getRow.mp hget).1

theorem exists_migrateAll (hq : w.Quiet) (h : settleAll w.host.history.rows cs = some rows') :
    ∃ n w', Runs (migrateAll cs) w (.ok n) w' ∧ w'.Quiet ∧ w'.host.history.rows = rows' := by
  induction cs generalizing w with
  | nil => exact ⟨0, w, runs_pure.mpr ⟨rfl, rfl⟩, hq, Option.some.inj h⟩
  | cons c cs ih =>
    obtain ⟨rows₁, hfirst, hrest⟩ := Option.bind_eq_some_iff.mp h
    have hrun := runs_of_fst (a := migrate c) (s := w) rfl
    obtain ⟨hq₁, ⟨b, hb⟩ | hnone⟩ := migrate_quiet hq hrun
    · rw [hb] at hrun
      obtain ⟨-, ⟨-, hsettle⟩ | ⟨⟨e, he⟩, -⟩⟩ := runs_migrate hrun
      · obtain rfl := Option.some.inj (hsettle.symm.trans hfirst)
        obtain ⟨n, w', hmore, hq', hrows⟩ := ih hq₁ hrest
        refine ⟨n + if b then 1 else 0, w', ?_, hq', hrows⟩
        rw [migrateAll, runs_bind_ok]
        exact ⟨b, _, hrun, runs_bind_ok.mpr ⟨n, w', hmore, runs_pure.mpr ⟨rfl, rfl⟩⟩⟩
      · cases he
    · cases hnone.symm.trans hfirst

/-! ## Compactions in parts -/

theorem settleAll_of_migrateAll (h : Runs (migrateAll cs) w (.ok n) w') :
    settleAll w.host.history.rows cs = some w'.host.history.rows := by
  obtain ⟨-, done, -, hsettle, hdone⟩ := runs_migrateAll h
  rwa [hdone n rfl] at hsettle

theorem runs_migrateAll_append (h : Runs (migrateAll (cs ++ ds)) w (.ok n) w') :
    ∃ m k w₁, Runs (migrateAll cs) w (.ok m) w₁ ∧ Runs (migrateAll ds) w₁ (.ok k) w' := by
  induction cs generalizing w n with
  | nil => exact ⟨0, n, w, runs_pure.mpr ⟨rfl, rfl⟩, h⟩
  | cons c cs ih =>
    rw [List.cons_append, migrateAll] at h
    obtain ⟨b, w₁, hfirst, h⟩ := runs_bind_ok.mp h
    obtain ⟨m, w₂, hrest, h⟩ := runs_bind_ok.mp h
    obtain ⟨-, rfl⟩ := runs_pure.mp h
    obtain ⟨m, k, w₃, hmore, hlast⟩ := ih hrest
    refine ⟨m + if b then 1 else 0, k, w₃, ?_, hlast⟩
    rw [migrateAll, runs_bind_ok]
    exact ⟨b, w₁, hfirst, runs_bind_ok.mpr ⟨m, w₃, hmore, runs_pure.mpr ⟨rfl, rfl⟩⟩⟩

/-- The first compactions are passed over when they are stored once more with the others. -/
theorem settleAll_take {rows₁ : Rows} {k : Nat} (h : settleAll rows cs = some rows')
    (hk : settleAll rows (cs.take k) = some rows₁) : settleAll rows₁ cs = some rows' := by
  have hagain : settleAll rows₁ (cs.take k ++ cs.drop k) = settleAll rows (cs.take k ++ cs.drop k) :=
    settleAll_again hk
  rwa [List.take_append_drop, h] at hagain

/-- A call ended within one more round than there are rows of the compaction's sequence number, and
put the compaction where it lands or left the history as it was. -/
structure Settles (c : Compaction) (w : World) (r : Except Error Bool) (w' : World) : Prop where
  bounded : Runs (migrateWithin ((sharing w.host.history.rows c.sequence).length + 1) c) w
    (r.map some) w'
  failed : ∀ e, r = .error e → w'.host.history = w.host.history
  landed : ∀ b, r = .ok b → ∃ t, Lands w.host.history.rows c t ∧
    w'.host.history.rows = w.host.history.rows.insert (c.timed t).key (c.timed t).encode ∧
    (b = true ↔ w.host.history.rows[(c.timed t).key]? = none)

theorem settles_of_migrate {r : Except Error Bool} (h : Runs (migrate c) w r w') :
    Settles c w r w' where
  bounded := runs_migrateWithin (List.length_filter_le _ _) h
  failed := by
    rintro e rfl
    obtain ⟨-, ⟨⟨b, hb⟩, -⟩ | ⟨-, hkept⟩⟩ := runs_migrate h
    · cases hb
    · exact hkept
  landed := by
    rintro b rfl
    exact lands_of_migrate h

/-- Calls for some compactions, all of which went through, kept the rows that were there and left
each compaction where it landed. Where the first compactions are stored before all of them are, this
ends in the same rows. -/
structure Stores (cs : List Compaction) (w w' : World) : Prop where
  kept : Extends w.host.history.rows w'.host.history.rows
  landed : ∀ before c after, cs = before ++ c :: after → ∃ m w₁ b w₂ k t,
    Runs (migrateAll before) w (.ok m) w₁ ∧ Runs (migrate c) w₁ (.ok b) w₂ ∧
    Runs (migrateAll after) w₂ (.ok k) w' ∧ Lands w₁.host.history.rows c t ∧
    w'.host.history.rows[(c.timed t).key]? = some (c.timed t).encode
  resumed : ∀ (k : Nat) (u : World), u.host.history.rows = w.host.history.rows →
    ∀ m u₁ u₂ m' u', Runs (migrateAll (cs.take k)) u (.ok m) u₁ →
      u₂.host.history.rows = u₁.host.history.rows → Runs (migrateAll cs) u₂ (.ok m') u' →
      u'.host.history.rows = w'.host.history.rows
  resumes : ∀ (k : Nat) (u : World), u.host.history.rows = w.host.history.rows → u.Quiet →
    ∃ m u₁ m' u', Runs (migrateAll (cs.take k)) u (.ok m) u₁ ∧
      Runs (migrateAll cs) u₁ (.ok m') u' ∧ u'.host.history.rows = w'.host.history.rows

theorem stores_of_migrateAll (h : Runs (migrateAll cs) w (.ok n) w') : Stores cs w w' where
  kept := extends_of_settleAll (settleAll_of_migrateAll h)
  landed := by
    rintro before c after rfl
    obtain ⟨m, k, w₁, hbefore, h⟩ := runs_migrateAll_append h
    rw [migrateAll] at h
    obtain ⟨b, w₂, hfirst, h⟩ := runs_bind_ok.mp h
    obtain ⟨k', w₃, hafter, h⟩ := runs_bind_ok.mp h
    obtain ⟨-, rfl⟩ := runs_pure.mp h
    obtain ⟨t, hl, hrows, -⟩ := lands_of_migrate hfirst
    refine ⟨m, w₁, b, w₂, k', t, hbefore, hfirst, hafter, hl, ?_⟩
    refine extends_of_settleAll (settleAll_of_migrateAll hafter) _ _ ?_
    rw [hrows, Std.ExtTreeMap.getElem?_insert_self]
  resumed k u hu m u₁ u₂ m' u' hfirst hu₂ hall := by
    have hagain := settleAll_take (hu ▸ settleAll_of_migrateAll h) (settleAll_of_migrateAll hfirst)
    rw [← hu₂, settleAll_of_migrateAll hall] at hagain
    exact Option.some.inj hagain
  resumes k u hu hq := by
    have hall := hu ▸ settleAll_of_migrateAll h
    obtain ⟨rows₁, hfirst, -⟩ : ∃ rows₁, settleAll u.host.history.rows (cs.take k) = some rows₁ ∧
        settleAll rows₁ (cs.drop k) = some w'.host.history.rows := by
      rw [← List.take_append_drop k cs, settleAll_append] at hall
      exact Option.bind_eq_some_iff.mp hall
    obtain ⟨m, u₁, hrun, hq₁, rfl⟩ := exists_migrateAll hq hfirst
    obtain ⟨m', u', hrun', -, hrows⟩ := exists_migrateAll hq₁ (settleAll_take hall hfirst)
    exact ⟨m, u₁, m', u', hrun, hrun', hrows⟩

/-- However a call ends, it puts the compaction where it lands or leaves the history as it was; and
calls that all go through lose nothing, even if only the first compactions were stored at first. -/
theorem migrateAll_resumes :
    (∀ (c : Compaction) (w : World) (r : Except Error Bool) (w' : World),
      Runs (migrate c) w r w' → Settles c w r w') ∧
    ∀ (cs : List Compaction) (w : World) (n : Nat) (w' : World),
      Runs (migrateAll cs) w (.ok n) w' → Stores cs w w' :=
  ⟨fun _ _ _ _ => settles_of_migrate, fun _ _ _ _ => stores_of_migrateAll⟩

end Tracker

end Lineage

/-! ## Compactions that collide -/

namespace Lineage.Sample

open Tracker (migrate migrateAll Lands)

/-- Three compactions of which the second one moves on to the time of the third. -/
def colliding : List Compaction := [named 5 1 "a" "b", named 5 1 "b" "c", named 5 2 "x" "y"]

def migrated (cs : List Compaction) (w : World) : World := ((migrateAll cs).run.run w).2

/-- The last time of all is taken. -/
def full : World := migrated [named 5 18446744073709551615 "a" "b"] fresh

theorem migrateAll_colliding :
    Runs (migrateAll colliding) fresh (.ok 3) (migrated colliding fresh) ∧
    (migrated colliding fresh).host.history.rows.toList =
      [named 5 1 "a" "b", named 5 2 "b" "c", named 5 3 "x" "y"].map (fun c => (c.key, c.encode)) ∧
    (∃ m u₁ m' u', Runs (migrateAll (colliding.take 2)) fresh (.ok m) u₁ ∧
      Runs (migrateAll colliding) u₁ (.ok m') u' ∧
      u'.host.history.rows = (migrated colliding fresh).host.history.rows) ∧
    ∃ w', Runs (migrate (named 5 18446744073709551615 "b" "c")) full (.error .timeOverflow) w' ∧
      w'.host.history = full.host.history := by
  have hrun : Runs (migrateAll colliding) fresh (.ok 3) (migrated colliding fresh) :=
    runs_of_toOption (by decide +kernel)
  have hover : Runs (migrate (named 5 18446744073709551615 "b" "c")) full (.error .timeOverflow) _ :=
    runs_of_fst (by decide +kernel)
  refine ⟨hrun, by decide +kernel, ?_, _, hover, ?_⟩
  · exact (Tracker.migrateAll_resumes.2 _ _ _ _ hrun).resumes 2 fresh rfl ⟨rfl, rfl⟩
  · exact (Tracker.migrateAll_resumes.1 _ _ _ _ hover).failed _ rfl

end Lineage.Sample
