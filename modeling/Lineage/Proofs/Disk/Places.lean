import Mathlib.Data.List.Count
import Lineage.Disk.Basic
import Lineage.SortedTable.FileName

/-!
# Where paths lead

Names and directories are all there is on a disk, so there is one place that a path may lead to
(`Path.spot`). A name without slashes leads from a directory to the place of that name inside of it
(`Path.spot_join`), and back to the directory as its parent (`Path.plainSteps_parent?`). A path that
is written anew from its components has these components (`Path.components_ofComponents`).
-/

namespace Lineage

/-! ## Steps -/

/-- A name that is no path: it has no slash. -/
def Unslashed (s : String) : Prop := '/' ∉ s.toList

theorem not_mem_of_mem_splitOn {c : Char} {cs l : List Char} (h : l ∈ cs.splitOn c) : c ∉ l := by
  induction cs generalizing l with
  | nil =>
    rw [List.splitOn_nil, List.mem_singleton] at h
    rw [h]
    exact List.not_mem_nil
  | cons d rest ih =>
    rw [List.splitOn_cons_eq_if_modifyHead] at h
    split at h
    · rcases List.mem_cons.mp h with rfl | h
      · exact List.not_mem_nil
      · exact ih h
    · rename_i hd
      obtain ⟨a, as, ha⟩ := List.exists_cons_of_ne_nil (List.splitOn_ne_nil c rest)
      rw [ha] at h ih
      rcases List.mem_cons.mp h with rfl | h
      · intro hc
        rcases List.mem_cons.mp hc with rfl | hc
        · exact hd (BEq.refl _)
        · exact ih List.mem_cons_self hc
      · exact ih (List.mem_cons_of_mem _ h)

namespace Path

variable {dir : Path} {inner : String}

theorem pieces_mk_append_slash (cs ds : List Char) :
    (Path.mk (String.ofList (cs ++ '/' :: ds))).pieces =
      (Path.mk (String.ofList cs)).pieces ++ (Path.mk (String.ofList ds)).pieces := by
  simp only [pieces, String.toList_ofList, List.splitOn_append_cons_self, List.map_append]

theorem pieces_of_unslashed (h : Unslashed inner) : (Path.mk inner).pieces = [inner] := by
  rw [pieces, List.splitOn_eq_singleton h, List.map_singleton, String.ofList_toList]

/-- Text that ends in a slash has the pieces of the text before it, and an empty one. -/
theorem steps_append_slash (cs : List Char) :
    (Path.mk (String.ofList (cs ++ ['/']))).steps = (Path.mk (String.ofList cs)).steps := by
  rw [steps, pieces_mk_append_slash, List.filter_append]
  exact List.append_nil _

theorem isAbsolute_of_unslashed (h : Unslashed inner) : (Path.mk inner).isAbsolute = false := by
  rw [isAbsolute, decide_eq_false_iff_not]
  exact fun hs => h (List.mem_of_mem_head? hs)

/-- A name in a directory is one more step. -/
theorem steps_join (h : Unslashed inner) (hne : inner ≠ "") :
    (dir.join inner).steps = dir.steps ++ [inner] := by
  have hinner : (Path.mk inner).steps = [inner] := by
    rw [steps, pieces_of_unslashed h]
    exact List.filter_eq_self.mpr (List.forall_mem_singleton.mpr (bne_iff_ne.mpr hne))
  have hslash (cs : List Char) : (Path.mk (String.ofList (cs ++ '/' :: inner.toList))).steps =
      (Path.mk (String.ofList cs)).steps ++ [inner] := by
    rw [steps, pieces_mk_append_slash, List.filter_append, String.ofList_toList]
    exact congrArg _ hinner
  rw [join, isAbsolute_of_unslashed h, if_neg Bool.false_ne_true]
  dsimp only
  split
  · rename_i hdir
    rcases hdir with hnil | hlast
    · have htext : dir.text = "" := String.toList_eq_nil_iff.mp hnil
      have hempty : dir.steps = [] := by
        rw [steps, pieces, hnil]
        rfl
      rw [hempty, htext, String.empty_append, hinner, List.nil_append]
    · obtain ⟨cs, hcs⟩ := List.getLast?_eq_some_iff.mp hlast
      have htext : dir.text ++ inner = String.ofList (cs ++ '/' :: inner.toList) := by
        rw [← String.toList_inj, String.toList_append, hcs, String.toList_ofList,
          List.append_assoc]
        rfl
      have hdir : dir = ⟨String.ofList (cs ++ ['/'])⟩ := by
        rw [← hcs, String.ofList_toList]
      rw [htext, hslash, hdir, steps_append_slash]
  · have htext : dir.text ++ "/" ++ inner =
        String.ofList (dir.text.toList ++ '/' :: inner.toList) := by
      rw [← String.toList_inj]
      simp only [String.toList_append, String.toList_ofList, List.append_assoc]
      rfl
    rw [htext, hslash, String.ofList_toList]

theorem isAbsolute_append_slash {pre post : String} :
    (Path.mk (pre ++ "/" ++ post)).isAbsolute = (Path.mk (pre ++ "/")).isAbsolute := by
  obtain ⟨c, cs, hpre⟩ : ∃ c cs, (pre ++ "/").toList = c :: cs := by
    rw [String.toList_append]
    exact List.exists_cons_of_ne_nil (List.append_ne_nil_of_right_ne_nil _ (List.cons_ne_nil _ _))
  have hwhole : (pre ++ "/" ++ post).toList = c :: (cs ++ post.toList) := by
    rw [String.toList_append, hpre, List.cons_append]
  rw [isAbsolute, isAbsolute, hwhole, hpre, List.head?_cons, List.head?_cons]

/-- What follows the last slash of a text is a name in the directory that is before it. -/
theorem join_append_slash {pre : String} (h : Unslashed inner) :
    dir.join (pre ++ "/" ++ inner) = (dir.join (pre ++ "/")).join inner := by
  have hinto (s : String) : (Path.mk (s ++ (pre ++ "/"))).join inner =
      ⟨s ++ (pre ++ "/" ++ inner)⟩ := by
    have hlast : (s ++ (pre ++ "/")).toList.getLast? = some '/' := by
      rw [String.toList_append, String.toList_append, ← List.append_assoc]
      exact List.getLast?_concat
    have htext : s ++ (pre ++ "/") ++ inner = s ++ (pre ++ "/" ++ inner) := String.append_assoc
    rw [join, isAbsolute_of_unslashed h, if_neg Bool.false_ne_true, ← htext]
    exact if_pos (Or.inr hlast)
  have hrelative (t : String) (ht : ¬ (Path.mk t).isAbsolute = true) : dir.join t =
      ⟨(if dir.text.toList = [] ∨ dir.text.toList.getLast? = some '/' then dir.text
        else dir.text ++ "/") ++ t⟩ := by
    rw [join, if_neg ht]
    dsimp only
    split
    · rfl
    · rfl
  by_cases habs : (Path.mk (pre ++ "/")).isAbsolute = true
  · have hdir : dir.join (pre ++ "/") = ⟨pre ++ "/"⟩ := if_pos habs
    have hwhole : dir.join (pre ++ "/" ++ inner) = ⟨pre ++ "/" ++ inner⟩ :=
      if_pos (isAbsolute_append_slash.trans habs)
    have halone := hinto ""
    simp only [String.empty_append] at halone
    rw [hdir, hwhole, halone]
  · have habs' : ¬ (Path.mk (pre ++ "/" ++ inner)).isAbsolute = true := by
      rwa [isAbsolute_append_slash]
    rw [hrelative _ habs, hrelative _ habs', hinto]

/-! ## Spots -/

/-- Follows one name from a place, whatever is there. -/
def follow (start : Place) (s : String) : Place :=
  if s = "." then start else if s = ".." then start.dropLast else start ++ [s]

/-- The one place a path may lead to. -/
def spot (p : Path) : Place := p.steps.foldl follow []

/-- A name of a file, and of no directory around it. -/
structure IsEntry (inner : String) : Prop where
  unslashed : Unslashed inner
  nonempty : inner ≠ ""
  not_here : inner ≠ "."
  not_up : inner ≠ ".."

theorem spot_join (h : IsEntry inner) : (dir.join inner).spot = dir.spot ++ [inner] := by
  rw [spot, steps_join h.unslashed h.nonempty, List.foldl_append]
  exact (if_neg h.not_here).trans (if_neg h.not_up)

/-! ## Parents -/

theorem component?_eq_some {s : String} {c : Component} (h : component? s = some c) :
    componentText c = s ∧ s ≠ "" ∧ s ≠ "." := by
  unfold component? at h
  split at h
  · cases h
  · cases h
  · cases h
    exact ⟨rfl, by decide, by decide⟩
  · rename_i h1 h2 _
    cases h
    exact ⟨rfl, h1, h2⟩

theorem component?_eq_none {s : String} (h : component? s = none) : s = "" ∨ s = "." := by
  unfold component? at h
  split at h
  · exact .inl rfl
  · exact .inr rfl
  · cases h
  · cases h

/-- The steps but for the single dots, which lead nowhere else. -/
def plainSteps (p : Path) : List String := p.steps.filter (· != ".")

/-- Components spell out the plain steps. -/
theorem map_componentText (l : List String) : (l.filterMap component?).map componentText =
    (l.filter (· != "")).filter (· != ".") := by
  induction l with
  | nil => rfl
  | cons s rest ih =>
    cases hs : component? s with
    | none =>
      rw [List.filterMap_cons_none hs, ih]
      rcases component?_eq_none hs with rfl | rfl
      · rfl
      · rfl
    | some c =>
      obtain ⟨htext, hne, hdot⟩ := component?_eq_some hs
      have hne' : (s != "") = true := bne_iff_ne.mpr hne
      have hdot' : (s != ".") = true := bne_iff_ne.mpr hdot
      rw [List.filterMap_cons_some hs, List.map_cons, ih, htext, List.filter_cons, if_pos hne',
        List.filter_cons, if_pos hdot']

theorem unslashed_of_mem_pieces {p : Path} {s : String} (h : s ∈ p.pieces) : Unslashed s := by
  obtain ⟨l, hl, rfl⟩ := List.mem_map.mp h
  rw [Unslashed, String.toList_ofList]
  exact not_mem_of_mem_splitOn hl

theorem unslashed_componentText {p : Path} {c : Component} (h : c ∈ p.components) :
    Unslashed (componentText c) := by
  rcases List.mem_append.mp h with hstart | hpiece
  · split at hstart
    · rw [List.mem_singleton.mp hstart]
      exact List.not_mem_nil
    · split at hstart
      · rw [List.mem_singleton.mp hstart, Unslashed]
        decide
      · cases hstart
  · obtain ⟨s, hs, hsc⟩ := List.mem_filterMap.mp hpiece
    rw [(component?_eq_some hsc).1]
    exact unslashed_of_mem_pieces hs

theorem pieces_ofComponents {cs : List Component} (hcs : ∀ c ∈ cs, Unslashed (componentText c))
    (hne : cs ≠ []) (hroot : cs ≠ [.root]) : (ofComponents cs).pieces = cs.map componentText := by
  have hmap : ∀ l ∈ (cs.map componentText).map String.toList, '/' ∉ l := by
    intro l hl
    obtain ⟨s, hs, rfl⟩ := List.mem_map.mp hl
    obtain ⟨c, hc, rfl⟩ := List.mem_map.mp hs
    exact hcs c hc
  have hne' : (cs.map componentText).map String.toList ≠ [] := by simpa using hne
  rw [ofComponents, if_neg hroot, pieces, String.toList_intercalate,
    show "/".toList = ['/'] from rfl, List.splitOn_intercalate '/' hmap hne', List.map_map]
  exact (List.map_congr_left fun s _ => String.ofList_toList).trans (List.map_id _)

theorem steps_ofComponents {cs : List Component} (h : ∀ c ∈ cs, Unslashed (componentText c)) :
    (ofComponents cs).steps = (cs.map componentText).filter (· != "") := by
  by_cases hroot : cs = [.root]
  · rw [hroot]
    rfl
  by_cases hne : cs = []
  · rw [hne]
    rfl
  · rw [steps, pieces_ofComponents h hne hroot]

/-- What a path starts with, which is no step. -/
def start (p : Path) : List Component :=
  if p.isAbsolute then [.root] else if p.pieces.head? = some "." then [.here] else []

theorem filterMap_filter_nonempty (l : List String) :
    (l.filter (· != "")).filterMap component? = l.filterMap component? := by
  have hempty : (fun s => if s != "" then component? s else none) = component? := by
    funext s
    split
    · rfl
    · rename_i hs
      rw [Bool.not_eq_true, bne_eq_false_iff_eq] at hs
      rw [hs]
      rfl
  rw [List.filterMap_filter, hempty]

theorem components_eq (p : Path) : p.components = p.start ++ p.steps.filterMap component? := by
  rw [steps, filterMap_filter_nonempty]
  rfl

theorem filter_map_start (p : Path) (cs : List Component) :
    (((p.start ++ cs).map componentText).filter (· != "")).filter (· != ".") =
      ((cs.map componentText).filter (· != "")).filter (· != ".") := by
  rw [start]
  split
  · rfl
  · split
    · rfl
    · rfl

theorem component?_of_isEntry (h : IsEntry inner) : component? inner = some (.name inner) := by
  unfold component?
  split
  · exact absurd rfl h.nonempty
  · exact absurd rfl h.not_here
  · exact absurd rfl h.not_up
  · rfl

/-- A name in a directory has that directory as its parent, however it is written. -/
theorem plainSteps_parent? {q : Path} (h : IsEntry inner) (hq : (dir.join inner).parent? = some q) :
    q.plainSteps = dir.plainSteps := by
  have hcomp : (dir.join inner).components =
      (dir.join inner).start ++ dir.steps.filterMap component? ++ [.name inner] := by
    rw [components_eq, steps_join h.unslashed h.nonempty, List.filterMap_append,
      List.filterMap_cons_some (component?_of_isEntry h), List.filterMap_nil, List.append_assoc]
  have hslash : ∀ c ∈ (dir.join inner).components.dropLast, Unslashed (componentText c) :=
    fun c hc => unslashed_componentText (List.dropLast_subset _ hc)
  have hlast : (dir.join inner).components.getLast? = some (.name inner) := by
    rw [hcomp, List.getLast?_concat]
  rw [parent?, hlast] at hq
  rw [← Option.some.inj hq, plainSteps, steps_ofComponents hslash, hcomp, List.dropLast_concat,
    filter_map_start, map_componentText, plainSteps, steps]
  simp only [List.filter_filter]
  refine List.filter_congr fun s _ => ?_
  cases s != "" <;> cases s != "." <;> rfl

/-! ## Components -/

theorem isAbsolute_iff : dir.isAbsolute = true ↔ ∃ s rest, dir.pieces = "" :: s :: rest := by
  rw [isAbsolute, decide_eq_true_eq, pieces]
  cases dir.text.toList with
  | nil => simp
  | cons c cs =>
    obtain ⟨l, ls, hl⟩ := List.exists_cons_of_ne_nil (List.splitOn_ne_nil '/' cs)
    by_cases hc : c = '/'
    · subst hc
      simp [List.splitOn_cons_eq_if_modifyHead, hl]
    · simp [List.splitOn_cons_eq_if_modifyHead, hl, hc]

/-- The text of a component is read as that component. -/
theorem filterMap_componentText (l : List String) :
    ((l.filterMap component?).map componentText).filterMap component? = l.filterMap component? := by
  induction l with
  | nil => rfl
  | cons s rest ih =>
    cases hs : component? s with
    | none => rw [List.filterMap_cons_none hs, ih]
    | some c =>
      have hc : component? (componentText c) = some c := by rw [(component?_eq_some hs).1, hs]
      rw [List.filterMap_cons_some hs, List.map_cons, List.filterMap_cons_some hc, ih]

/-- What a path starts with is seen from its first pieces. -/
theorem start_eq (p : Path) : p.start = match p.pieces with
    | "" :: _ :: _ => [.root]
    | "." :: _ => [.here]
    | _ => [] := by
  rw [start]
  split
  · rename_i habs
    obtain ⟨s, rest, hp⟩ := isAbsolute_iff.mp habs
    rw [hp]
    rfl
  · rename_i habs
    split
    · rename_i hhere
      obtain ⟨rest, hp⟩ := List.head?_eq_some_iff.mp hhere
      rw [hp]
      rfl
    · rename_i hhere
      split
      · rename_i hp
        exact absurd (isAbsolute_iff.mpr ⟨_, _, hp⟩) habs
      · rename_i hp
        exact absurd (by rw [hp]; rfl) hhere
      · rfl

theorem ne_root_of_component? {s : String} {c : Component} (h : component? s = some c) :
    componentText c ≠ "" ∧ componentText c ≠ "." ∧ c ≠ .root := by
  obtain ⟨htext, hne, hdot⟩ := component?_eq_some h
  rw [htext]
  refine ⟨hne, hdot, ?_⟩
  rintro rfl
  exact hne htext.symm

theorem start_ofComponents (p : Path) : (ofComponents p.components).start = p.start := by
  have hslash : ∀ c ∈ p.components, Unslashed (componentText c) := fun c => unslashed_componentText
  have hnames : ∀ c ∈ p.steps.filterMap component?,
      componentText c ≠ "" ∧ componentText c ≠ "." ∧ c ≠ .root := by
    intro c hc
    obtain ⟨s, -, hs⟩ := List.mem_filterMap.mp hc
    exact ne_root_of_component? hs
  rw [components_eq] at hslash ⊢
  generalize p.steps.filterMap component? = rest at hslash hnames ⊢
  have hstart : p.start = [.root] ∨ p.start = [.here] ∨ p.start = [] := by
    rw [start]
    split
    · exact .inl rfl
    · split
      · exact .inr (.inl rfl)
      · exact .inr (.inr rfl)
  rcases hstart with hstart | hstart | hstart <;> rw [hstart] at hslash ⊢
  · cases rest with
    | nil => rfl
    | cons c rest =>
      rw [start_eq, pieces_ofComponents hslash (by simp) (by simp)]
      rfl
  · rw [start_eq, pieces_ofComponents hslash (by simp) (by simp)]
    rfl
  · cases rest with
    | nil => rfl
    | cons c rest =>
      obtain ⟨hempty, hdot, hroot⟩ := hnames c List.mem_cons_self
      rw [start_eq, pieces_ofComponents hslash (by simp) (by simp [hroot])]
      simp [hempty, hdot]

theorem filterMap_start (p : Path) : (p.start.map componentText).filterMap component? = [] := by
  rw [start]
  split
  · rfl
  · split <;> rfl

/-- The plainest path with the components of a path has these components. -/
theorem components_ofComponents (p : Path) : (ofComponents p.components).components = p.components := by
  have hslash : ∀ c ∈ p.components, Unslashed (componentText c) := fun c => unslashed_componentText
  calc (ofComponents p.components).components
      = p.start ++ (p.components.map componentText).filterMap component? := by
        rw [components_eq, start_ofComponents, steps_ofComponents hslash, filterMap_filter_nonempty]
    _ = p.start ++ p.steps.filterMap component? := by
        rw [components_eq, List.map_append, List.filterMap_append, filterMap_start,
          filterMap_componentText, List.nil_append]
    _ = p.components := (components_eq p).symm

end Path

/-! ## Tables -/

namespace SortedTable

variable {dir dir' : Path} {m n : String}

theorem append_ending_ne {s : String} (hs : s.toList.getLast? ≠ some 't') :
    n ++ String.ofList ending ≠ s := by
  intro he
  have hlast : (n ++ String.ofList ending).toList.getLast? = some 't' := by
    rw [String.toList_append, String.toList_ofList]
    exact List.getLast?_append.trans rfl
  rw [he] at hlast
  exact hs hlast

theorem isEntry_append_ending (h : Unslashed n) : Path.IsEntry (n ++ String.ofList ending) := by
  refine ⟨?_, append_ending_ne (by decide), append_ending_ne (by decide),
    append_ending_ne (by decide)⟩
  rw [Unslashed, String.toList_append, String.toList_ofList, List.mem_append]
  exact not_or.mpr ⟨h, by decide⟩

theorem spot_pathIn (h : Unslashed n) :
    (pathIn dir n).spot = dir.spot ++ [n ++ String.ofList ending] :=
  Path.spot_join (isEntry_append_ending h)

/-- Tables of different names, or in different directories, have different places. -/
theorem spot_pathIn_inj (hm : Unslashed m) (hn : Unslashed n) :
    (pathIn dir m).spot = (pathIn dir' n).spot ↔ dir.spot = dir'.spot ∧ m = n := by
  rw [spot_pathIn hm, spot_pathIn hn, List.append_singleton_inj, String.append_left_inj]

/-- Whatever the name of a table is, its path ends in a name without slashes. -/
theorem exists_pathIn (dir : Path) (n : String) :
    ∃ dir' m, Unslashed m ∧ pathIn dir n = pathIn dir' m := by
  by_cases h : '/' ∈ n.toList.reverse
  swap
  · exact ⟨dir, n, fun hn => h (List.mem_reverse.mpr hn), rfl⟩
  obtain ⟨post, pre, hsplit, hpost⟩ := List.eq_append_cons_of_mem h
  have hn : n = String.ofList pre.reverse ++ "/" ++ String.ofList post.reverse := by
    rw [← String.toList_inj, ← List.reverse_reverse n.toList, hsplit]
    simp
  have hm : Unslashed (String.ofList post.reverse) := by
    rwa [Unslashed, String.toList_ofList, List.mem_reverse]
  refine ⟨dir.join (String.ofList pre.reverse ++ "/"), String.ofList post.reverse, hm, ?_⟩
  rw [pathIn, hn, String.append_assoc, Path.join_append_slash (isEntry_append_ending hm).unslashed]
  rfl

theorem unslashed_of_fileName? {p : Path} {s : String} (h : p.fileName? = some s) :
    Unslashed s := by
  rw [Path.fileName?] at h
  split at h
  · rename_i hlast
    cases h
    exact Path.unslashed_componentText (List.mem_of_getLast? hlast)
  · cases h

/-- The name of a table has no slash. -/
theorem unslashed_of_nameAt? {p : Path} (h : nameAt? p = some n) : Unslashed n := by
  obtain ⟨s, hs, h⟩ := Option.bind_eq_some_iff.mp h
  obtain ⟨stem, hstem, h⟩ := Option.bind_eq_some_iff.mp h
  have hn : stem = n := by
    split at h
    · cases h
    · exact Option.some.inj h
  obtain ⟨cs, hcs, rfl⟩ := Option.map_eq_some_iff.mp hstem
  have happ := List.isPrefixOf?_eq_some_iff_append_eq.mp hcs
  rw [← hn, Unslashed, String.toList_ofList, List.mem_reverse]
  intro hmem
  refine unslashed_of_fileName? hs (List.mem_reverse.mp ?_)
  rw [← happ]
  exact List.mem_append_right _ hmem

end SortedTable

end Lineage
