import Lineage.Proofs.Migration.Settling
import Lineage.Proofs.Rows

/-!
# Runs of a migration

However the migration of compactions ends, the rows are those that the first of them settle in, and
nothing else changed but the bytes of the table's file (`runs_migrateAll`).
-/

namespace Lineage.Tracker

open World (onDisk onHost update)

variable {w w' : World} {c : Compaction} {cs : List Compaction}

theorem runs_migrate {r : Except Error Bool} (h : Runs (migrate c) w r w') : OnlyRows w w' ∧
    ((∃ b, r = .ok b) ∧ settle w.host.history.rows c = some w'.host.history.rows ∨
      (∃ e, r = .error e) ∧ w'.host.history = w.host.history) := by
  induction c using migrate.induct generalizing w with
  | case1 c ih =>
    rw [migrate] at h
    rcases runs_bind.mp h with ⟨row, w₁, hget, h⟩ | ⟨e, hget, rfl⟩
    · obtain ⟨hasked, hrow⟩ := runs_getRow hget
      have hrow := hrow row rfl
      have honly := OnlyRows.of_asked hasked
      have hhistory := hasked.history
      cases row with
      | none =>
        dsimp only at h
        rcases runs_bind.mp h with ⟨_, w₂, hput, h⟩ | ⟨e, hput, rfl⟩
        · obtain ⟨rfl, rfl⟩ := runs_pure.mp h
          obtain ⟨honly', ⟨-, hrows'⟩ | ⟨⟨e, he⟩, -⟩⟩ := runs_putRow hput
          · refine ⟨Frame.trans honly honly', .inl ⟨⟨_, rfl⟩, ?_⟩⟩
            rw [settle_none hrow.symm, hrows', hhistory]
          · cases he
        · obtain ⟨honly', ⟨he, -⟩ | ⟨-, hkept⟩⟩ := runs_putRow hput
          · cases he
          · exact ⟨Frame.trans honly honly', .inr ⟨⟨_, rfl⟩, hkept.trans hhistory⟩⟩
      | some row =>
        dsimp only at h
        split at h
        · rename_i heq
          obtain ⟨rfl, rfl⟩ := runs_pure.mp h
          refine ⟨honly, .inl ⟨⟨_, rfl⟩, ?_⟩⟩
          rw [settle_self (hrow.symm.trans (congrArg some heq)), hhistory]
        · rename_i hne
          rw [settle_other hrow.symm hne]
          split at h
          · rename_i hlt
            obtain ⟨honly', hrest⟩ := ih hlt h
            rw [if_pos hlt, ← hhistory]
            exact ⟨Frame.trans honly honly', hrest⟩
          · rename_i hlt
            obtain ⟨rfl, rfl⟩ := runs_throw.mp h
            exact ⟨honly, .inr ⟨⟨_, rfl⟩, hhistory⟩⟩
    · have hasked := (runs_getRow hget).1
      exact ⟨.of_asked hasked, .inr ⟨⟨e, rfl⟩, hasked.history⟩⟩

/-- Compactions are stored from the first one on. -/
theorem runs_migrateAll {r : Except Error Nat} (h : Runs (migrateAll cs) w r w') : OnlyRows w w' ∧
    ∃ done, done <+: cs ∧ settleAll w.host.history.rows done = some w'.host.history.rows ∧
      ∀ k, r = .ok k → done = cs := by
  induction cs generalizing w r with
  | nil =>
    obtain ⟨-, rfl⟩ := runs_pure.mp h
    exact ⟨Frame.refl _, [], List.prefix_rfl, rfl, fun _ _ => rfl⟩
  | cons c cs ih =>
    rw [migrateAll] at h
    rcases runs_bind.mp h with ⟨b, w₁, hfirst, h⟩ | ⟨e, hfirst, rfl⟩
    · obtain ⟨honly, ⟨-, hsettle⟩ | ⟨⟨e, he⟩, -⟩⟩ := runs_migrate hfirst
      · obtain ⟨r₁, hrest, hr⟩ : ∃ r₁, Runs (migrateAll cs) w₁ r₁ w' ∧
            ∀ k, r = .ok k → ∃ k₁, r₁ = .ok k₁ := by
          rcases runs_bind.mp h with ⟨k, w₂, hrest, h⟩ | ⟨e, hrest, rfl⟩
          · obtain ⟨-, rfl⟩ := runs_pure.mp h
            exact ⟨_, hrest, fun _ _ => ⟨k, rfl⟩⟩
          · exact ⟨_, hrest, fun _ hk => nomatch hk⟩
        obtain ⟨honly', done, hprefix, hsettleAll, hdone⟩ := ih hrest
        refine ⟨Frame.trans honly honly', c :: done, List.cons_prefix_cons.mpr ⟨rfl, hprefix⟩, ?_,
          fun k hk => ?_⟩
        · rw [settleAll_cons, hsettle]
          exact hsettleAll
        · obtain ⟨k₁, hk₁⟩ := hr k hk
          rw [hdone k₁ hk₁]
      · cases he
    · obtain ⟨honly, ⟨⟨b, hb⟩, -⟩ | ⟨-, hkept⟩⟩ := runs_migrate hfirst
      · cases hb
      · exact ⟨honly, [], List.nil_prefix, by rw [hkept]; rfl, fun _ hk => nomatch hk⟩

end Lineage.Tracker
