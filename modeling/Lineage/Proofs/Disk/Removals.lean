import Lineage.Proofs.Disk.Files

/-!
# Names that are removed

Removing files takes names away and brings none (`Disk.Sheds`), and no names but those of the files
that the paths lead to (`Disk.ShedsAmong`). Where no removal is refused, all of these go
(`Disk.Cleared`), which settles what is left (`Disk.Cleared.unique`).
-/

namespace Lineage.Disk

variable {d d' d₁ d₂ : Disk} {p : Path} {ps ps' : List Path} {q : Place} {n : Node} {id : FileId}

/-- Some names of files are gone, and no other name came or leads elsewhere. -/
structure Sheds (d d' : Disk) : Prop where
  node : ∀ q, d'.node? q = d.node? q ∨ (∃ id, d.node? q = some (.file id)) ∧ d'.node? q = none

namespace Sheds

theorem of_nodes (h : d'.nodes = d.nodes) : Sheds d d' := ⟨fun q => .inl (node?_of_nodes h q)⟩

instance : Frame Sheds where
  refl _ := .of_nodes rfl
  trans h h' := by
    refine ⟨fun q => ?_⟩
    rcases h'.node q with hq' | ⟨⟨id, hid⟩, hq'⟩ <;> rcases h.node q with hq | ⟨hfile, hq⟩
    · exact .inl (hq'.trans hq)
    · exact .inr ⟨hfile, hq'.trans hq⟩
    · exact .inr ⟨⟨id, hq ▸ hid⟩, hq'⟩
    · exact .inr ⟨hfile, hq'⟩

theorem node?_eq_some (h : Sheds d d') (hq : d'.node? q = some n) : d.node? q = some n := by
  rcases h.node q with he | ⟨-, hnone⟩
  · rw [← he, hq]
  · cases hq.symm.trans hnone

theorem directory (h : Sheds d d') :
    d'.node? q = some .directory ↔ d.node? q = some .directory := by
  refine ⟨h.node?_eq_some, fun hq => ?_⟩
  rcases h.node q with he | ⟨⟨id, hid⟩, -⟩
  · rw [he, hq]
  · cases hq.symm.trans hid

theorem at?_eq_some (h : Sheds d d') (hp : d'.at? p = some n) : d.at? p = some n := by
  obtain ⟨hplace, hnode⟩ := Disk.at?_eq_some.mp hp
  exact Disk.at?_eq_some.mpr
    ⟨place_mono (fun _ => h.directory.mp) hplace, h.node?_eq_some hnode⟩

theorem isFile (h : Sheds d d') (hp : d'.isFile p = true) : d.isFile p = true := by
  obtain ⟨id, hid⟩ := isFile_iff.mp hp
  exact isFile_iff.mpr ⟨id, h.at?_eq_some hid⟩

end Sheds

/-- Of the names, only those of the files that some paths lead to may be gone. -/
structure ShedsAmong (ps : List Path) (d d' : Disk) : Prop extends Sheds d d' where
  kept : ∀ q, d'.node? q = d.node? q ∨ ∃ p ∈ ps, p.spot = q ∧ d.isFile p = true

namespace ShedsAmong

theorem of_nodes (h : d'.nodes = d.nodes) : ShedsAmong ps d d' :=
  ⟨.of_nodes h, fun q => .inl (node?_of_nodes h q)⟩

theorem trans (h : ShedsAmong ps d d₁) (h' : ShedsAmong ps' d₁ d₂) :
    ShedsAmong (ps ++ ps') d d₂ where
  toSheds := Frame.trans h.toSheds h'.toSheds
  kept q := by
    rcases h'.kept q with hq' | ⟨p, hp, hq, hfile⟩
    · rcases h.kept q with hq | ⟨p, hp, hq⟩
      · exact .inl (hq'.trans hq)
      · exact .inr ⟨p, List.mem_append_left _ hp, hq⟩
    · exact .inr ⟨p, List.mem_append_right _ hp, hq, h.isFile hfile⟩

theorem congr {e e' : Disk} (h : ShedsAmong ps d d') (hd : e.nodes = d.nodes)
    (hd' : e'.nodes = d'.nodes) : ShedsAmong ps e e' where
  node q := by
    rw [node?_of_nodes hd, node?_of_nodes hd']
    exact h.node q
  kept q := by
    simp only [node?_of_nodes hd, node?_of_nodes hd', isFile_eq (at?_of_nodes hd)]
    exact h.kept q

/-- A path to whose file none of the others leads, leads there still. -/
theorem at?_eq (h : ShedsAmong ps d d') (hp : d.at? p = some (.file id))
    (hnot : ¬ ∃ p' ∈ ps, d.place p' = .ok p.spot) : d'.at? p = some (.file id) := by
  obtain ⟨hplace, hnode⟩ := at?_eq_some.mp hp
  rw [at?_of_place (place_mono (fun _ => h.directory.mpr) hplace)]
  rcases h.kept p.spot with he | ⟨p', hp', hspot, hfile⟩
  · rw [he, hnode]
  · obtain ⟨id', hid'⟩ := isFile_iff.mp hfile
    exact absurd ⟨p', hp', hspot ▸ (at?_eq_some.mp hid').1⟩ hnot

end ShedsAmong

/-- The names of the files that some paths lead to are gone, and no other name. -/
structure Cleared (ps : List Path) (d d' : Disk) : Prop extends ShedsAmong ps d d' where
  gone : ∀ p ∈ ps, d'.isFile p = false

namespace Cleared

theorem of_nodes (h : d'.nodes = d.nodes) : Cleared [] d d' := ⟨.of_nodes h, nofun⟩

theorem trans (h : Cleared ps d d₁) (h' : Cleared ps' d₁ d₂) : Cleared (ps ++ ps') d d₂ where
  toShedsAmong := h.toShedsAmong.trans h'.toShedsAmong
  gone p hp := by
    rcases List.mem_append.mp hp with hp | hp
    · exact Bool.eq_false_iff.mpr (mt h'.isFile (Bool.eq_false_iff.mp (h.gone p hp)))
    · exact h'.gone p hp

/-- Nothing is left at the spot of a path that led to a file. -/
theorem node?_eq_none (h : Cleared ps d d') (hp : p ∈ ps) (hfile : d.isFile p = true) :
    d'.node? p.spot = none := by
  rcases h.node p.spot with he | ⟨-, hnone⟩
  · have hsame : d'.at? p = d.at? p := at?_congr (fun q => h.directory) he
    cases (h.gone p hp).symm.trans ((isFile_eq hsame).trans hfile)
  · exact hnone

/-- What is left is settled by what was there. -/
theorem unique (h₁ : Cleared ps d d₁) (h₂ : Cleared ps d d₂) (q : Place) :
    d₁.node? q = d₂.node? q := by
  rcases h₁.kept q with hq₁ | ⟨p, hp, rfl, hfile⟩
  · rcases h₂.kept q with hq₂ | ⟨p, hp, rfl, hfile⟩
    · exact hq₁.trans hq₂.symm
    · exact (h₁.node?_eq_none hp hfile).trans (h₂.node?_eq_none hp hfile).symm
  · exact (h₁.node?_eq_none hp hfile).trans (h₂.node?_eq_none hp hfile).symm

/-- A path to whose file one of the others leads, leads nowhere any more. -/
theorem at?_eq_none (h : Cleared ps d d') (hp : d.at? p = some (.file id))
    (hex : ∃ p' ∈ ps, d.place p' = .ok p.spot) : d'.at? p = none := by
  obtain ⟨hplace, hnode⟩ := at?_eq_some.mp hp
  obtain ⟨p', hp', hplace'⟩ := hex
  have hspot := place_eq_spot hplace'
  rw [at?_of_place (place_mono (fun _ => h.directory.mpr) hplace)]
  rw [hspot] at hplace' hnode ⊢
  exact h.node?_eq_none hp' (isFile_iff.mpr ⟨id, at?_eq_some.mpr ⟨hplace', hnode⟩⟩)

end Cleared

/-- However a removal ends, it was one more operation, and it touches no bytes. -/
theorem later_of_removeFile {r : Except IoError Unit} (h : Runs (removeFile p) d r d') :
    d'.outage = d.outage.later ∧ d'.contents = d.contents := by
  cases r with
  | ok u =>
    obtain ⟨-, id, -, rfl⟩ := runs_removeFile_ok.mp h
    exact ⟨rfl, rfl⟩
  | error e =>
    rw [(runs_change_error.mp h).1]
    exact ⟨rfl, rfl⟩

/-- A removal that goes through takes away the name of a file and no other. -/
theorem node?_of_removeFile {u : Unit} (h : Runs (removeFile p) d (.ok u) d') :
    (∃ id, d.at? p = some (.file id)) ∧
      ∀ q, d'.node? q = if p.spot = q then none else d.node? q := by
  obtain ⟨-, id, hat, rfl⟩ := runs_removeFile_ok.mp h
  have hnode := (at?_eq_some.mp hat).2
  exact ⟨⟨id, hat⟩, fun q => node?_erase (d := { d with outage := d.outage.later })
    (ne_nil_of_node?_ne_directory (d := d) (by rw [hnode]; exact nofun))⟩

/-- However a removal ends, only the name of the file that its path leads to may be gone. -/
theorem sheds_removeFile {r : Except IoError Unit} (h : Runs (removeFile p) d r d') :
    ShedsAmong [p] d d' := by
  cases r with
  | ok u =>
    obtain ⟨⟨id, hat⟩, hnode⟩ := node?_of_removeFile h
    refine ⟨⟨fun q => ?_⟩, fun q => ?_⟩
    · by_cases hq : p.spot = q
      · exact .inr ⟨⟨id, hq ▸ (at?_eq_some.mp hat).2⟩, (hnode q).trans (if_pos hq)⟩
      · exact .inl ((hnode q).trans (if_neg hq))
    · by_cases hq : p.spot = q
      · exact .inr ⟨p, List.mem_singleton_self p, hq, isFile_iff.mpr ⟨id, hat⟩⟩
      · exact .inl ((hnode q).trans (if_neg hq))
  | error e =>
    rw [(runs_change_error.mp h).1]
    exact .of_nodes rfl

/-- The name that a path leads to is removed, if it is that of a file. -/
theorem cleared_removeFile {r : Except IoError Unit} (hf : d.outage 0 .remove = none)
    (h : Runs (removeFile p) d r d') : Cleared [p] d d' := by
  refine ⟨sheds_removeFile h, List.forall_mem_singleton.mpr ?_⟩
  rw [← Bool.not_eq_true, isFile_iff]
  rintro ⟨id, hat⟩
  cases r with
  | ok u =>
    have hnone := ((node?_of_removeFile h).2 p.spot).trans (if_pos rfl)
    cases hnone.symm.trans (at?_eq_some.mp hat).2
  | error e =>
    obtain ⟨rfl, he⟩ := runs_change_error.mp h
    rw [hf] at he
    cases he.symm.trans (withoutName_iff.mpr ⟨id, hat, rfl⟩)

end Lineage.Disk
