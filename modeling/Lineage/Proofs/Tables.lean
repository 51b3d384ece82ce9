import Lineage.Proofs.RecordFile.Opening

/-!
# What operations on tables do

A row that is put is there (`Host.putRow_ok`), and one that is deleted is gone
(`Host.deleteRow_ok`). Whatever is done to a table, no name on the disk is led elsewhere
(`Host.within_putRow`, `Host.within_deleteRow`).
-/

namespace Lineage

variable {places : Place → Prop}

/-! ## Tables -/

theorem RecordFile.change_ok {t t' : RecordFile} {r : Record} {d d' : Disk}
    (h : Runs (t.change r) d (.ok t') d') : t'.rows = r.applyTo t.rows := by
  rw [RecordFile.change, runs_bind_ok] at h
  obtain ⟨_, d₁, -, h⟩ := h
  obtain ⟨ht, -⟩ := runs_pure.mp h
  rw [Except.ok.inj ht]

theorem Table.moves_put {t : Table} {key value : Bytes} :
    Moves (Disk.Within places) (t.put key value) := by
  cases t with
  | memory rows => exact moves_pure
  | recorded t => exact moves_map RecordFile.moves_change

theorem Table.moves_delete {t : Table} {key : Bytes} :
    Moves (Disk.Within places) (t.delete key) := by
  cases t with
  | memory rows => exact moves_pure
  | recorded t => exact moves_map RecordFile.moves_delete

theorem Table.put_ok {t t' : Table} {key value : Bytes} {d d' : Disk}
    (h : Runs (t.put key value) d (.ok t') d') : t'.rows = t.rows.insert key value := by
  cases t with
  | memory rows =>
    cases (runs_pure.mp h).1
    rfl
  | recorded t =>
    obtain ⟨t₁, ht₁, rfl⟩ := runs_map_ok.mp h
    exact RecordFile.change_ok ht₁

/-- Nothing is erased where nothing is. -/
theorem erase_eq_self {rows : Rows} {key : Bytes} (h : rows.contains key = false) :
    rows.erase key = rows := by
  ext1 k
  rw [Std.ExtTreeMap.getElem?_erase]
  split
  · rename_i hk
    rw [← Std.compare_eq_iff_eq.mp hk, Std.ExtTreeMap.getElem?_eq_none]
    rw [Std.ExtTreeMap.mem_iff_contains, h]
    exact Bool.false_ne_true
  · rfl

theorem Table.delete_ok {t t' : Table} {key : Bytes} {d d' : Disk}
    (h : Runs (t.delete key) d (.ok t') d') : t'.rows = t.rows.erase key := by
  cases t with
  | memory rows =>
    cases (runs_pure.mp h).1
    rfl
  | recorded t =>
    obtain ⟨t₁, ht₁, rfl⟩ := runs_map_ok.mp h
    rw [RecordFile.delete] at ht₁
    split at ht₁
    · exact RecordFile.change_ok ht₁
    · rename_i hkey
      cases (runs_pure.mp ht₁).1
      exact (erase_eq_self (Bool.eq_false_iff.mpr hkey)).symm

/-! ## Hosts -/

namespace Host

variable {h h' : Host} {key value : Bytes}

theorem within_consult {op : TableOperation} :
    Moves (InvImage (Disk.Within places) Host.disk) (consult op) := by
  intro h r h' hr
  rw [(runs_consult.mp hr).1]
  exact Frame.refl _

theorem within_changeHistory {op : TableOperation} {a : Table → Disk.Action TableError Table}
    (ha : ∀ t, Moves (Disk.Within places) (a t)) :
    Moves (InvImage (Disk.Within places) Host.disk) (changeHistory op a) := by
  refine moves_bind within_consult fun _ => moves_bind moves_get fun h => ?_
  refine moves_bind (moves_onDisk (ha _)) fun t => ?_
  intro s r s' hr
  rw [(runs_modify.mp hr).2]
  exact Frame.refl _

theorem within_putRow : Moves (InvImage (Disk.Within places) Host.disk) (putRow key value) :=
  within_changeHistory fun _ => Table.moves_put

theorem within_deleteRow : Moves (InvImage (Disk.Within places) Host.disk) (deleteRow key) :=
  within_changeHistory fun _ => Table.moves_delete

/-- What is read off a host, unless that is refused. -/
theorem runs_read {α : Type} (op : TableOperation) (f : Host → α) {r : Except TableError α} :
    Runs (do consult op; return f (← get)) h r h' ↔ h' = { h with outage := h.outage.later } ∧
      r = match h.outage 0 op with
        | none => .ok (f { h with outage := h.outage.later })
        | some e => .error (.io e) := by
  simp only [runs_bind, runs_consult, runs_get, runs_pure]
  cases h.outage 0 op <;> simp [and_comm]

/-- A change of the history is one of its table. -/
theorem runs_changeHistory_ok {op : TableOperation} {a : Table → Disk.Action TableError Table}
    {u : Unit} : Runs (changeHistory op a) h (.ok u) h' ↔ h.outage 0 op = none ∧
      ∃ t d, Runs (a h.history) h.disk (.ok t) d ∧
        h' = { h with outage := h.outage.later, disk := d, history := t } := by
  rw [changeHistory, runs_bind_ok]
  constructor
  · rintro ⟨_, h₁, hconsult, hr⟩
    obtain ⟨hop, rfl⟩ := runs_consult_ok.mp hconsult
    rw [runs_get_bind, runs_bind_ok] at hr
    obtain ⟨t, h₂, hdisk, hr⟩ := hr
    obtain ⟨d, hrun, rfl⟩ := runs_onDisk.mp hdisk
    exact ⟨hop, t, d, hrun, (runs_modify.mp hr).2⟩
  · rintro ⟨hop, t, d, hrun, rfl⟩
    refine ⟨(), _, runs_consult_ok.mpr ⟨hop, rfl⟩, ?_⟩
    rw [runs_get_bind, runs_bind_ok]
    exact ⟨t, _, runs_onDisk.mpr ⟨d, hrun, rfl⟩, runs_modify.mpr ⟨rfl, rfl⟩⟩

/-- A change that fails leaves the history as it was, whatever its table did on the disk. -/
theorem runs_changeHistory_error {op : TableOperation} {a : Table → Disk.Action TableError Table}
    {e : TableError} : Runs (changeHistory op a) h (.error e) h' ↔
      (∃ f, h.outage 0 op = some f ∧ e = .io f ∧ h' = { h with outage := h.outage.later }) ∨
        h.outage 0 op = none ∧ ∃ d, Runs (a h.history) h.disk (.error e) d ∧
          h' = { h with outage := h.outage.later, disk := d } := by
  rw [changeHistory, runs_bind]
  constructor
  · rintro (⟨_, h₁, hconsult, hr⟩ | ⟨e', hconsult, he⟩)
    · obtain ⟨hop, rfl⟩ := runs_consult_ok.mp hconsult
      rw [runs_get_bind, runs_bind] at hr
      rcases hr with ⟨t, h₂, -, hr⟩ | ⟨e', hdisk, he⟩
      · cases (runs_modify.mp hr).1
      · cases he
        obtain ⟨d, hrun, rfl⟩ := runs_onDisk.mp hdisk
        exact .inr ⟨hop, d, hrun, rfl⟩
    · cases he
      obtain ⟨rfl, hop⟩ := runs_consult.mp hconsult
      cases hf : h.outage 0 op with
      | none =>
        rw [hf] at hop
        cases hop
      | some f =>
        rw [hf] at hop
        exact .inl ⟨f, rfl, Except.error.inj hop, rfl⟩
  · rintro (⟨f, hf, rfl, rfl⟩ | ⟨hop, d, hrun, rfl⟩)
    · exact .inr ⟨.io f, runs_consult.mpr ⟨rfl, by rw [hf]⟩, rfl⟩
    · refine .inl ⟨(), _, runs_consult_ok.mpr ⟨hop, rfl⟩, ?_⟩
      rw [runs_get_bind, runs_bind]
      exact .inr ⟨e, runs_onDisk.mpr ⟨d, hrun, rfl⟩, rfl⟩

theorem putRow_ok {u : Unit} (hr : Runs (putRow key value) h (.ok u) h') :
    h'.history.rows = h.history.rows.insert key value ∧ h'.snapshots = h.snapshots := by
  obtain ⟨-, t, d, hput, rfl⟩ := runs_changeHistory_ok.mp hr
  exact ⟨Table.put_ok hput, rfl⟩

/-- A change that fails leaves both tables as they were. -/
theorem changeHistory_error {op : TableOperation} {a : Table → Disk.Action TableError Table}
    {e : TableError} (hr : Runs (changeHistory op a) h (.error e) h') :
    h'.history = h.history ∧ h'.snapshots = h.snapshots := by
  rcases runs_changeHistory_error.mp hr with ⟨f, -, -, rfl⟩ | ⟨-, d, -, rfl⟩
  · exact ⟨rfl, rfl⟩
  · exact ⟨rfl, rfl⟩

theorem deleteRow_ok {u : Unit} (hr : Runs (deleteRow key) h (.ok u) h') :
    h'.history.rows = h.history.rows.erase key ∧ h'.snapshots = h.snapshots := by
  obtain ⟨-, t, d, hdelete, rfl⟩ := runs_changeHistory_ok.mp hr
  exact ⟨Table.delete_ok hdelete, rfl⟩

end Host

/-! ## Worlds -/

namespace World

variable {ε α : Type} {wrap : TableError → ε} {w w' : World}

/-- A world once its history was asked. -/
def later (w : World) : World :=
  { w with host := { w.host with outage := w.host.outage.later } }

/-- What is read off the host of a world, unless that is refused. -/
theorem runs_read (op : TableOperation) (f : Host → α) {r : Except ε α} :
    Runs (onHost wrap (do Host.consult op; return f (← get))) w r w' ↔ w' = w.later ∧
      r = match w.host.outage 0 op with
        | none => .ok (f w.later.host)
        | some e => .error (wrap (.io e)) := by
  rw [runs_onHost]
  constructor
  · rintro ⟨r₀, h, hread, rfl, rfl⟩
    obtain ⟨rfl, rfl⟩ := (Host.runs_read op f).mp hread
    refine ⟨rfl, ?_⟩
    cases w.host.outage 0 op <;> rfl
  · rintro ⟨rfl, rfl⟩
    refine ⟨_, _, (Host.runs_read op f).mpr ⟨rfl, rfl⟩, ?_, rfl⟩
    cases w.host.outage 0 op <;> rfl

theorem runs_scanRows {r : Except ε (List (Bytes × Bytes))} :
    Runs (onHost wrap Host.scanRows) w r w' ↔ w' = w.later ∧
      r = match w.host.outage 0 .scan with
        | none => .ok w.host.history.rows.toList
        | some e => .error (wrap (.io e)) :=
  runs_read .scan fun h => h.history.rows.toList

theorem runs_scanRows_ok {rows : List (Bytes × Bytes)} :
    Runs (onHost wrap Host.scanRows) w (.ok rows) w' ↔ w.host.outage 0 .scan = none ∧
      rows = w.host.history.rows.toList ∧ w' = w.later := by
  rw [runs_scanRows]
  cases w.host.outage 0 .scan <;> simp [and_comm]

theorem runs_getRow {key : Bytes} {r : Except ε (Option Bytes)} :
    Runs (onHost wrap (Host.getRow key)) w r w' ↔ w' = w.later ∧
      r = match w.host.outage 0 .get with
        | none => .ok w.host.history.rows[key]?
        | some e => .error (wrap (.io e)) :=
  runs_read .get fun h => h.history.rows[key]?

theorem runs_getRow_ok {key : Bytes} {row : Option Bytes} :
    Runs (onHost wrap (Host.getRow key)) w (.ok row) w' ↔ w.host.outage 0 .get = none ∧
      row = w.host.history.rows[key]? ∧ w' = w.later := by
  rw [runs_getRow]
  cases w.host.outage 0 .get <;> simp [and_comm]

theorem runs_getRow_error {key : Bytes} {e : ε} :
    Runs (onHost wrap (Host.getRow key)) w (.error e) w' ↔
      ∃ f, w.host.outage 0 .get = some f ∧ e = wrap (.io f) ∧ w' = w.later := by
  rw [runs_getRow]
  cases w.host.outage 0 .get <;> simp [and_comm]

end World

end Lineage
