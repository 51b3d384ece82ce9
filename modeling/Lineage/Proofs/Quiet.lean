import Lineage.Proofs.Disk.Files
import Lineage.Proofs.Recording

/-!
# Worlds that refuse nothing

Where nothing that is asked is refused (`World.Quiet`), whatever is read or changed in the history
goes through, and nothing will be refused later.
-/

namespace Lineage

open World (onDisk onHost update)

/-- Nothing that is asked of a world is refused. -/
structure World.Quiet (w : World) : Prop where
  disk : w.disk.outage = .quiet
  history : w.host.outage = .quiet

theorem World.Quiet.not_refused {w : World} {op : TableOperation} (h : w.Quiet) :
    ¬ ∃ f, w.host.outage 0 op = some f := by
  rw [h.history]
  rintro ⟨f, hf⟩
  cases hf

/-! ## Plans of failures -/

/-- The world in which nothing is refused any more. -/
def World.calm (w : World) : World :=
  { w with host := { w.host with disk := w.host.disk.calm, outage := .quiet } }

namespace Tracker

variable {w w₁ : World}

theorem quiet_calm : w.calm.Quiet := ⟨rfl, rfl⟩

theorem tracker_of_calm (h : w₁.calm = w.calm) : w₁.tracker = w.tracker := by
  have htracker := congrArg World.tracker h
  exact htracker

theorem history_of_calm (h : w₁.calm = w.calm) : w₁.host.history = w.host.history := by
  have hhistory := congrArg (fun w => w.host.history) h
  exact hhistory

theorem Asked.calm (h : Asked w w₁) : w₁.calm = w.calm := by
  obtain ⟨⟨disk, outage, history, snapshots⟩, t⟩ := w
  obtain ⟨⟨disk', outage', history', snapshots'⟩, t'⟩ := w₁
  obtain ⟨rfl, rfl, rfl, rfl⟩ := h
  rfl

end Tracker

/-! ## Tables -/

section
variable {t : Table} {key value : Bytes} {d d' : Disk} {r : Except TableError Table}

theorem RecordFile.change_quiet {t : RecordFile} {rec : Record} {r : Except TableError RecordFile}
    (hq : d.outage = .quiet) (h : Runs (t.change rec) d r d') : ∃ t', r = .ok t' := by
  rcases runs_bind.mp h with ⟨_, d₁, -, h⟩ | ⟨e', h, -⟩
  · exact ⟨_, (runs_pure.mp h).1⟩
  · obtain ⟨e₀, h, -⟩ := runs_adapt_error.mp h
    cases ((Disk.runs_append_quiet hq).mp h).1

theorem Table.put_quiet (hq : d.outage = .quiet) (h : Runs (t.put key value) d r d') :
    (∃ t', r = .ok t') ∧ d'.outage = .quiet := by
  have hwithin : Disk.Within (fun _ => False) d d' := Table.moves_put _ _ _ h
  refine ⟨?_, hwithin.quiet hq⟩
  cases t with
  | memory rows => exact ⟨_, (runs_pure.mp h).1⟩
  | recorded t =>
    cases r with
    | ok t' => exact ⟨t', rfl⟩
    | error e =>
      obtain ⟨t', ht'⟩ := RecordFile.change_quiet hq (runs_map_error.mp h)
      cases ht'

theorem Table.delete_quiet (hq : d.outage = .quiet) (h : Runs (t.delete key) d r d') :
    (∃ t', r = .ok t') ∧ d'.outage = .quiet := by
  have hwithin : Disk.Within (fun _ => False) d d' := Table.moves_delete _ _ _ h
  refine ⟨?_, hwithin.quiet hq⟩
  cases t with
  | memory rows => exact ⟨_, (runs_pure.mp h).1⟩
  | recorded t =>
    cases r with
    | ok t' => exact ⟨t', rfl⟩
    | error e =>
      replace h := runs_map_error.mp h
      rw [RecordFile.delete] at h
      split at h
      · obtain ⟨t', ht'⟩ := RecordFile.change_quiet hq h
        cases ht'
      · cases (runs_pure.mp h).1

end

/-! ## Hosts -/

section
variable {ε α : Type} {wrap : TableError → ε} {w w' : World} {key value : Bytes}

theorem World.Quiet.later_eq (hq : w.Quiet) : w.later = w := by
  rw [World.later, hq.history, Outage.later_quiet, ← hq.history]

theorem World.Quiet.later (hq : w.Quiet) : w.later.Quiet := by
  rw [hq.later_eq]
  exact hq

/-- What is read off a host is told, and nothing changes. -/
theorem World.Quiet.runs_read (hq : w.Quiet) (op : TableOperation) (f : Host → α) {r : Except ε α} :
    Runs (onHost wrap (do Host.consult op; return f (← get))) w r w' ↔
      r = .ok (f w.host) ∧ w' = w := by
  rw [World.runs_read, hq.later_eq, hq.history]
  exact and_comm

theorem World.Quiet.runs_getRow (hq : w.Quiet) {r : Except ε (Option Bytes)} :
    Runs (onHost wrap (Host.getRow key)) w r w' ↔ r = .ok w.host.history.rows[key]? ∧ w' = w :=
  hq.runs_read .get fun h => h.history.rows[key]?

variable {r : Except ε Unit}

theorem changeHistory_quiet {op : TableOperation} {a : Table → Disk.Action TableError Table}
    (ha : ∀ {t d r d'}, d.outage = .quiet → Runs (a t) d r d' →
      (∃ t', r = .ok t') ∧ d'.outage = .quiet)
    (hq : w.Quiet) (h : Runs (onHost wrap (Host.changeHistory op a)) w r w') :
    r = .ok () ∧ w'.Quiet := by
  have hlater : w.host.outage.later = .quiet := by rw [hq.history, Outage.later_quiet]
  obtain ⟨r₀, host, hhost, rfl, rfl⟩ := World.runs_onHost.mp h
  cases r₀ with
  | ok u =>
    obtain ⟨-, t, d, hchange, rfl⟩ := Host.runs_changeHistory_ok.mp hhost
    exact ⟨rfl, (ha hq.disk hchange).2, hlater⟩
  | error e =>
    rcases Host.runs_changeHistory_error.mp hhost with ⟨f, hf, -, -⟩ | ⟨-, d, hchange, -⟩
    · exact absurd ⟨f, hf⟩ hq.not_refused
    · obtain ⟨⟨t, ht⟩, -⟩ := ha hq.disk hchange
      cases ht

theorem putRow_quiet (hq : w.Quiet) (h : Runs (onHost wrap (Host.putRow key value)) w r w') :
    r = .ok () ∧ w'.Quiet :=
  changeHistory_quiet Table.put_quiet hq h

theorem deleteRow_quiet (hq : w.Quiet) (h : Runs (onHost wrap (Host.deleteRow key)) w r w') :
    r = .ok () ∧ w'.Quiet :=
  changeHistory_quiet Table.delete_quiet hq h

end

end Lineage
