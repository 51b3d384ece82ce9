import Lineage.Proofs.Disk.Files
import Lineage.Proofs.Recording

/-!
# What is done to rows

To read rows changes nothing. A change of rows writes to the file that they are kept in and to no
other (`OnlyRows`); it is made, or it leaves the rows as they were (`runs_putRow`, `runs_deleteRow`).
-/

namespace Lineage

open World (onDisk onHost update)

/-! ## What tables write -/

/-- Nothing changed but bytes of some files, and the failures to come. -/
structure Disk.Writes (files : FileId → Prop) (d d' : Disk) : Prop where
  nodes : d'.nodes = d.nodes
  content : ∀ id, ¬ files id → d'.content id = d.content id

instance {files : FileId → Prop} : Frame (Disk.Writes files) where
  refl _ := ⟨rfl, fun _ _ => rfl⟩
  trans h h' := ⟨h'.nodes.trans h.nodes, fun id hid => (h'.content id hid).trans (h.content id hid)⟩

theorem Disk.writes_append {id : FileId} {b : Bytes} : Moves (Disk.Writes (· = id)) (append id b) := by
  intro d r d' h
  obtain ⟨b', rfl⟩ := withContent_of_append h
  exact ⟨rfl, fun i hi => content_withContent.trans (if_neg (Ne.symm hi))⟩

namespace Table

variable {t t' : Table} {key value : Bytes} {d d' : Disk}

/-- The file that a table keeps its rows in, if it does. -/
def file? : Table → Option FileId
  | .memory _ => none
  | .recorded t => some t.file

theorem writes_change {t : RecordFile} {r : RecordFile.Record} :
    Moves (Disk.Writes (some t.file = some ·)) (t.change r) := by
  refine moves_bind (moves_adapt fun d r d' h => ?_) fun _ => moves_pure
  have hw := Disk.writes_append d r d' h
  exact ⟨hw.nodes, fun id hid => hw.content id fun he => hid (he ▸ rfl)⟩

theorem file_of_change {t t' : RecordFile} {r : RecordFile.Record} (h : Runs (t.change r) d (.ok t') d') :
    t'.file = t.file := by
  obtain ⟨_, d₁, -, h⟩ := runs_bind_ok.mp h
  cases (runs_pure.mp h).1
  rfl

theorem writes_put : Moves (Disk.Writes (t.file? = some ·)) (t.put key value) := by
  cases t with
  | memory rows => exact moves_pure
  | recorded t => exact moves_map writes_change

theorem file?_of_put (h : Runs (t.put key value) d (.ok t') d') : t'.file? = t.file? := by
  cases t with
  | memory rows =>
    cases (runs_pure.mp h).1
    rfl
  | recorded t =>
    obtain ⟨t₁, ht₁, rfl⟩ := runs_map_ok.mp h
    exact congrArg some (file_of_change ht₁)

theorem writes_delete : Moves (Disk.Writes (t.file? = some ·)) (t.delete key) := by
  cases t with
  | memory rows => exact moves_pure
  | recorded t =>
    refine moves_map ?_
    rw [RecordFile.delete]
    split
    · exact writes_change
    · exact moves_pure

theorem file?_of_delete (h : Runs (t.delete key) d (.ok t') d') : t'.file? = t.file? := by
  cases t with
  | memory rows =>
    cases (runs_pure.mp h).1
    rfl
  | recorded t =>
    obtain ⟨t₁, ht₁, rfl⟩ := runs_map_ok.mp h
    rw [RecordFile.delete] at ht₁
    split at ht₁
    · exact congrArg some (file_of_change ht₁)
    · cases (runs_pure.mp ht₁).1
      rfl

end Table

namespace Tracker

variable {w w' : World}

/-- Nothing changed but rows of the history and the bytes of their file. -/
structure OnlyRows (w w' : World) : Prop where
  tracker : w'.tracker = w.tracker
  disk : Disk.Writes (w.host.history.file? = some ·) w.disk w'.disk
  file : w'.host.history.file? = w.host.history.file?

instance : Frame OnlyRows where
  refl _ := ⟨rfl, Frame.refl _, rfl⟩
  trans h h' := ⟨h'.tracker.trans h.tracker, Frame.trans h.disk (h.file ▸ h'.disk),
    h'.file.trans h.file⟩

theorem OnlyRows.of_asked (h : Asked w w') : OnlyRows w w' where
  tracker := h.tracker
  disk := (show w'.disk = w.disk from h.disk) ▸ Frame.refl _
  file := by rw [h.history]

/-! ## Reading rows -/

theorem runs_getRow {ε : Type} {wrap : TableError → ε} {key : Bytes} {r : Except ε (Option Bytes)}
    (h : Runs (onHost wrap (Host.getRow key)) w r w') :
    Asked w w' ∧ ∀ row, r = .ok row → row = w.host.history.rows[key]? := by
  refine ⟨asked_of_read .get (fun h => h.history.rows[key]?) h, fun row hrow => ?_⟩
  subst hrow
  exact (World.runs_getRow_ok.mp h).2.1

theorem runs_scanRows {r : Except Error (List (Bytes × Bytes))}
    (h : Runs (onHost Error.table Host.scanRows) w r w') : Asked w w' :=
  asked_of_read .scan (fun h => h.history.rows.toList) h

/-! ## Changes of rows -/

/-- A change of the history is made, or it leaves the rows as they were. -/
theorem runs_changeHistory {ε : Type} {wrap : TableError → ε} {op : TableOperation}
    {a : Table → Disk.Action TableError Table} {r : Except ε Unit} (f : Rows → Rows)
    (hwrites : ∀ t, Moves (Disk.Writes (t.file? = some ·)) (a t))
    (hok : ∀ {t t' d d'}, Runs (a t) d (.ok t') d' → t'.file? = t.file? ∧ t'.rows = f t.rows)
    (h : Runs (onHost wrap (Host.changeHistory op a)) w r w') : OnlyRows w w' ∧
      (r = .ok () ∧ w'.host.history.rows = f w.host.history.rows ∨
        (∃ e, r = .error e) ∧ w'.host.history = w.host.history) := by
  obtain ⟨r₀, host, hhost, rfl, rfl⟩ := World.runs_onHost.mp h
  cases r₀ with
  | ok u =>
    obtain ⟨-, t, d, hchange, rfl⟩ := Host.runs_changeHistory_ok.mp hhost
    obtain ⟨hfile, hrows⟩ := hok hchange
    exact ⟨⟨rfl, hwrites _ _ _ _ hchange, hfile⟩, .inl ⟨rfl, hrows⟩⟩
  | error e =>
    rcases Host.runs_changeHistory_error.mp hhost with ⟨g, -, -, rfl⟩ | ⟨-, d, hchange, rfl⟩
    · exact ⟨⟨rfl, Frame.refl _, rfl⟩, .inr ⟨⟨_, rfl⟩, rfl⟩⟩
    · exact ⟨⟨rfl, hwrites _ _ _ _ hchange, rfl⟩, .inr ⟨⟨_, rfl⟩, rfl⟩⟩

/-- A row that is put is there, and one that is not put leaves the rows as they were. -/
theorem runs_putRow {ε : Type} {wrap : TableError → ε} {key value : Bytes} {r : Except ε Unit}
    (h : Runs (onHost wrap (Host.putRow key value)) w r w') : OnlyRows w w' ∧
      (r = .ok () ∧ w'.host.history.rows = w.host.history.rows.insert key value ∨
        (∃ e, r = .error e) ∧ w'.host.history = w.host.history) :=
  runs_changeHistory (·.insert key value) (fun _ => Table.writes_put)
    (fun hput => ⟨Table.file?_of_put hput, Table.put_ok hput⟩) h

/-- A row that is deleted is gone, and one that is not deleted leaves the rows as they were. -/
theorem runs_deleteRow {ε : Type} {wrap : TableError → ε} {key : Bytes} {r : Except ε Unit}
    (h : Runs (onHost wrap (Host.deleteRow key)) w r w') : OnlyRows w w' ∧
      (r = .ok () ∧ w'.host.history.rows = w.host.history.rows.erase key ∨
        (∃ e, r = .error e) ∧ w'.host.history = w.host.history) :=
  runs_changeHistory (·.erase key) (fun _ => Table.writes_delete)
    (fun hdelete => ⟨Table.file?_of_delete hdelete, Table.delete_ok hdelete⟩) h

end Tracker

end Lineage
