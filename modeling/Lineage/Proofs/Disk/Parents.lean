import Mathlib.Data.String.Basic
import Lineage.Proofs.Disk.Files

/-!
# The directory that a file is in

A path that leads to a file goes through the directory that the file is in, and its parent is a path
to that directory (`Disk.walk_parent_of_file`). No text of the parent stands in the way, since it is
the text of the path with some characters left out (`Path.sublist_parent?`). So the directories
around a file are there (`Disk.parent_of_file`), save that the parent of a path of one component is
the empty path, which stands for where one is and cannot be opened.
-/

namespace Lineage

/-! ## Texts -/

theorem intercalate_sublist {α : Type} {sep : List α} {l l' : List (List α)} (h : l.Sublist l') :
    (sep.intercalate l).Sublist (sep.intercalate l') := by
  induction h with
  | slnil => exact List.Sublist.refl _
  | @cons l l' a h ih =>
    cases l' with
    | nil =>
      rw [List.sublist_nil.mp h]
      exact List.nil_sublist _
    | cons b l' =>
      rw [List.intercalate_cons_cons]
      exact ih.trans (List.sublist_append_right _ _)
  | @cons_cons l l' a h ih =>
    cases l with
    | nil =>
      cases l' with
      | nil => exact List.Sublist.refl _
      | cons b l' =>
        rw [List.intercalate_cons_cons, List.intercalate_singleton, List.append_assoc]
        exact List.sublist_append_left _ _
    | cons c l =>
      cases l' with
      | nil => cases h
      | cons b l' =>
        rw [List.intercalate_cons_cons, List.intercalate_cons_cons]
        exact List.Sublist.append (List.Sublist.refl _) ih

namespace Path

variable {p dir : Path} {cs : List Component}

theorem sublist_filterMap_component? (l : List String) :
    ((l.filterMap component?).map componentText).Sublist l := by
  rw [map_componentText]
  exact List.filter_sublist.trans List.filter_sublist

/-- Components are texts between slashes, in their order. -/
theorem sublist_components (p : Path) : (p.components.map componentText).Sublist p.pieces := by
  have hcomponents : p.components = p.start ++ p.pieces.filterMap component? := rfl
  rw [hcomponents, start_eq]
  split
  · rename_i s rest hp
    rw [hp, List.filterMap_cons_none rfl]
    exact (sublist_filterMap_component? _).cons_cons ""
  · rename_i rest hp
    rw [hp, List.filterMap_cons_none rfl]
    exact (sublist_filterMap_component? rest).cons_cons "."
  · exact sublist_filterMap_component? _

theorem isAbsolute_of_root_mem (h : Component.root ∈ p.components) : p.isAbsolute = true := by
  rcases List.mem_append.mp h with hstart | hname
  · split at hstart
    · assumption
    · split at hstart
      · cases List.mem_singleton.mp hstart
      · cases hstart
  · obtain ⟨s, -, hs⟩ := List.mem_filterMap.mp hname
    exact absurd rfl (ne_root_of_component? hs).2.2

/-- A path of some of the components is the text of the path with some characters left out. -/
theorem sublist_ofComponents (h : cs.Sublist p.components) :
    (ofComponents cs).text.toList.Sublist p.text.toList := by
  rw [ofComponents]
  dsimp only
  split
  · rename_i hroot
    have habs := isAbsolute_of_root_mem (h.subset (hroot ▸ List.mem_singleton_self _))
    rw [isAbsolute, decide_eq_true_eq] at habs
    exact List.singleton_sublist.mpr (List.mem_of_mem_head? habs)
  · have hpieces : p.pieces.map String.toList = p.text.toList.splitOn '/' := by
      rw [pieces, List.map_map]
      exact (List.map_congr_left fun _ _ => String.toList_ofList).trans (List.map_id _)
    have hsub := ((h.map componentText).trans p.sublist_components).map String.toList
    rw [hpieces] at hsub
    have hjoined : ['/'].intercalate (p.text.toList.splitOn '/') = p.text.toList :=
      List.intercalate_splitOn _
    rw [String.toList_intercalate, ← hjoined]
    exact intercalate_sublist hsub

theorem sublist_parent? (h : p.parent? = some dir) : dir.text.toList.Sublist p.text.toList := by
  rw [parent?] at h
  split at h
  · cases h
  · cases h
  · cases h
    exact sublist_ofComponents (List.dropLast_sublist _)

end Path

namespace Disk

variable {d : Disk} {p dir : Path} {id : FileId}

/-- No path is refused for a text that has fewer of the characters, unless it is empty. -/
theorem checkText_of_sublist {u : Unit} (h : dir.text.toList.Sublist p.text.toList)
    (hne : dir.text ≠ "") (hp : checkText p = .ok u) : checkText dir = .ok () := by
  rw [checkText] at hp
  split at hp
  · cases hp
  · rename_i hnul
    split at hp
    · cases hp
    · split at hp
      · cases hp
      · rename_i hshort
        have hnul' : ¬ dir.text.toList.contains '\x00' = true := by
          rw [List.contains_iff_mem] at hnul ⊢
          exact fun hmem => hnul (h.subset hmem)
        have hsize : dir.text.utf8ByteSize ≤ p.text.utf8ByteSize := by
          rw [← String.utf8Len_toList, ← String.utf8Len_toList]
          exact String.utf8Len_le_of_sublist h
        rw [checkText, if_neg hnul', if_neg hne, if_neg (by omega)]

/-- The last step of a path that leads to a file is no single dot. -/
theorem exists_steps_of_file (h : d.at? p = some (.file id)) :
    ∃ front last m, p.steps = front ++ [last] ∧ last ≠ "" ∧ last ≠ "." ∧
      d.walk [] front = .ok m ∧ d.node? m = some .directory := by
  obtain ⟨hplace, hnode⟩ := at?_eq_some.mp h
  have hslash := asksDirectory_of_file h
  rw [place_eq hslash] at hplace
  obtain ⟨_, -, hwalk⟩ := except_bind_eq_ok.mp hplace
  rcases List.eq_nil_or_concat p.steps with hnil | ⟨front, last, hsteps⟩
  · have hspot : p.spot = [] := by rw [Path.spot, hnil, List.foldl_nil]
    rw [hspot] at hnode
    cases hnode
  · rw [List.concat_eq_append] at hsteps
    rw [hsteps] at hwalk
    obtain ⟨m, hm, hd⟩ := walk_concat hwalk
    have hlast : last ∈ p.steps := by
      rw [hsteps]
      exact List.mem_append_right _ (List.mem_singleton_self last)
    refine ⟨front, last, m, hsteps, bne_iff_ne.mp (List.mem_filter.mp hlast).2, ?_, hm, hd⟩
    rintro rfl
    have hspot : p.spot = m := by
      rw [walk_eq_foldl hwalk, List.foldl_append, walk_eq_foldl hm]
      rfl
    rw [hspot, hd] at hnode
    cases hnode

/-- The parent of a path that leads to a file leads to the directory that the file is in. -/
theorem walk_parent_of_file (h : d.at? p = some (.file id)) (hp : p.parent? = some dir) :
    ∃ m, d.walk [] dir.steps = .ok m ∧ d.node? m = some .directory := by
  obtain ⟨front, last, m, hsteps, hne, hdot, hm, hd⟩ := exists_steps_of_file h
  refine ⟨m, ?_, hd⟩
  cases hc : Path.component? last with
  | none =>
    rcases Path.component?_eq_none hc with rfl | rfl
    · exact absurd rfl hne
    · exact absurd rfl hdot
  | some c =>
    have hcomponents : p.components = p.start ++ front.filterMap Path.component? ++ [c] := by
      rw [Path.components_eq, hsteps, List.filterMap_append, List.filterMap_cons_some hc,
        List.filterMap_nil, List.append_assoc]
    have hdir : dir = .ofComponents (p.start ++ front.filterMap Path.component?) := by
      rw [Path.parent?, hcomponents, List.getLast?_concat, List.dropLast_concat] at hp
      split at hp
      · cases hp
      · cases hp
      · exact (Option.some.inj hp).symm
    have hslash : ∀ c ∈ p.start ++ front.filterMap Path.component?,
        Unslashed (Path.componentText c) := by
      intro c' hc'
      refine Path.unslashed_componentText (p := p) ?_
      rw [hcomponents]
      exact List.mem_append_left _ hc'
    have hnonempty : ∀ s ∈ front, (s != "") = true := fun s hs =>
      (List.mem_filter.mp (show s ∈ p.steps from hsteps ▸ List.mem_append_left _ hs)).2
    have hplain : ((front.filterMap Path.component?).map Path.componentText).filter (· != "") =
        front.filter (· != ".") := by
      rw [Path.map_componentText, List.filter_eq_self.mpr hnonempty]
      exact List.filter_eq_self.mpr fun s hs => hnonempty s (List.mem_of_mem_filter hs)
    rw [hdir, Path.steps_ofComponents hslash, ← walk_filter hd, Path.filter_map_start, hplain,
      walk_filter hd, walk_filter hd, hm]

/-- The directories around a file are there; the empty path stands for where one is. -/
theorem parent_of_file (h : d.at? p = some (.file id)) (hp : p.parent? = some dir) :
    dir.components = [] ∨ d.isDirectory dir = true := by
  by_cases hempty : dir.text = ""
  · left
    obtain ⟨text⟩ := dir
    cases hempty
    rfl
  · right
    obtain ⟨m, hm, hd⟩ := walk_parent_of_file h hp
    obtain ⟨u, htext⟩ := exists_checkText_of_place (at?_eq_some.mp h).1
    exact isDirectory_of_walk (checkText_of_sublist (Path.sublist_parent? hp) hempty htext) hm hd

theorem runs_makeParents_of_file (hq : d.outage = .quiet) (h : d.at? p = some (.file id)) :
    Runs (makeParents p) d (.ok ()) d :=
  runs_makeParents hq fun _ hp => parent_of_file h hp

end Disk

end Lineage
