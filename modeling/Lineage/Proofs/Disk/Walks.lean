import Lineage.Proofs.Actions
import Lineage.Proofs.Disk.Places

/-!
# What paths lead to

A path that leads anywhere leads to its spot, whatever the disk holds (`Disk.place_eq_spot`); whether
it does depends on the directories on its way alone (`Disk.place_mono`). `Disk.at?` is what it leads
to.
-/

namespace Lineage.Disk

variable {d d' : Disk} {p : Path} {q start spot : Place} {l : List String} {n : Node}

/-! ## Walks -/

theorem walk_cons {s : String} : d.walk start (s :: l) = .ok q ↔
    d.node? start = some .directory ∧ (s = "." ∨ s = ".." ∨ s.utf8ByteSize ≤ maxName) ∧
      d.walk (Path.follow start s) l = .ok q := by
  rw [walk, Path.follow]
  cases hnode : d.node? start with
  | none => exact ⟨nofun, nofun⟩
  | some n =>
    cases n with
    | file id => exact ⟨nofun, nofun⟩
    | directory =>
      dsimp only
      by_cases hdot : s = "."
      · rw [if_pos hdot, if_pos hdot]
        exact ⟨fun h => ⟨rfl, .inl hdot, h⟩, fun h => h.2.2⟩
      · by_cases hup : s = ".."
        · rw [if_neg hdot, if_pos hup, if_neg hdot, if_pos hup]
          exact ⟨fun h => ⟨rfl, .inr (.inl hup), h⟩, fun h => h.2.2⟩
        · by_cases hlong : maxName < s.utf8ByteSize
          · rw [if_neg hdot, if_neg hup, if_pos hlong]
            refine ⟨nofun, fun h => ?_⟩
            rcases h.2.1 with h | h | h
            · exact absurd h hdot
            · exact absurd h hup
            · exact absurd hlong (Nat.not_lt.mpr h)
          · rw [if_neg hdot, if_neg hup, if_neg hlong, if_neg hdot, if_neg hup]
            exact ⟨fun h => ⟨rfl, .inr (.inr (Nat.not_lt.mp hlong)), h⟩, fun h => h.2.2⟩

theorem walk_eq_foldl (h : d.walk start l = .ok q) : q = l.foldl Path.follow start := by
  induction l generalizing start with
  | nil =>
    cases h
    rfl
  | cons s rest ih => exact ih (walk_cons.mp h).2.2

/-- Wherever a path leads, it leads to its spot. -/
theorem place_eq_spot (h : d.place p = .ok q) : q = p.spot := by
  rw [place] at h
  cases hc : checkText p with
  | error e =>
    rw [hc] at h
    cases h
  | ok u =>
    rw [hc] at h
    have hw := walk_eq_foldl (show d.walk [] _ = .ok q from h)
    split at hw
    · rwa [List.foldl_append] at hw
    · exact hw

/-- Paths need no more than the directories on their way. -/
theorem walk_mono (h : ∀ q, d.node? q = some .directory → d'.node? q = some .directory)
    (hw : d.walk start l = .ok q) : d'.walk start l = .ok q := by
  induction l generalizing start with
  | nil => exact hw
  | cons s rest ih =>
    obtain ⟨hd, hs, hrest⟩ := walk_cons.mp hw
    exact walk_cons.mpr ⟨h start hd, hs, ih hrest⟩

theorem place_mono (h : ∀ q, d.node? q = some .directory → d'.node? q = some .directory)
    (hp : d.place p = .ok q) : d'.place p = .ok q := by
  rw [place] at hp ⊢
  cases hc : checkText p with
  | error e =>
    rw [hc] at hp
    cases hp
  | ok u =>
    rw [hc] at hp
    exact walk_mono h hp

theorem directory_of_walk (hw : d.walk start l = .ok q) (hq : d.node? q = some .directory) :
    d.node? start = some .directory := by
  cases l with
  | nil =>
    cases hw
    exact hq
  | cons s rest => exact (walk_cons.mp hw).1

/-- Single dots lead nowhere else. -/
theorem walk_filter (hq : d.node? q = some .directory) :
    d.walk start (l.filter (· != ".")) = .ok q ↔ d.walk start l = .ok q := by
  induction l generalizing start with
  | nil => exact Iff.rfl
  | cons s rest ih =>
    by_cases hs : s = "."
    · have hfollow : Path.follow start s = start := if_pos hs
      have hskip : (s :: rest).filter (· != ".") = rest.filter (· != ".") :=
        List.filter_cons_of_neg (by rw [hs]; decide)
      rw [hskip, ih, walk_cons, hfollow]
      exact ⟨fun hw => ⟨directory_of_walk hw hq, .inl hs, hw⟩, fun hw => hw.2.2⟩
    · have hkeep : (s :: rest).filter (· != ".") = s :: rest.filter (· != ".") :=
        List.filter_cons_of_pos (bne_iff_ne.mpr hs)
      rw [hkeep, walk_cons, walk_cons, ih]

theorem walk_concat {s : String} (hw : d.walk start (l ++ [s]) = .ok q) :
    ∃ m, d.walk start l = .ok m ∧ d.node? m = some .directory := by
  induction l generalizing start with
  | nil => exact ⟨start, rfl, (walk_cons.mp hw).1⟩
  | cons t rest ih =>
    obtain ⟨hd, ht, hrest⟩ := walk_cons.mp hw
    obtain ⟨m, hm, hdir⟩ := ih hrest
    exact ⟨m, walk_cons.mpr ⟨hd, ht, hm⟩, hdir⟩

/-! ## Nodes -/

theorem node?_eq (hq : q ≠ []) : d.node? q = d.nodes[q]? := by
  rw [node?]
  exact fun h => hq h

theorem ne_nil_of_node?_ne_directory (h : d.node? q ≠ some .directory) : q ≠ [] := by
  intro hq
  rw [hq] at h
  exact h rfl

theorem ne_nil_of_node?_none (h : d.node? q = none) : q ≠ [] :=
  ne_nil_of_node?_ne_directory (h.trans_ne (Option.some_ne_none _).symm)

theorem node?_insert (hs : spot ≠ []) :
    node? { d with nodes := d.nodes.insert spot n } q = if spot = q then some n else d.node? q := by
  by_cases hq : q = []
  · subst hq
    rw [if_neg hs]
    rfl
  · rw [node?_eq hq, node?_eq hq, Std.ExtTreeMap.getElem?_insert]
    simp only [Std.compare_eq_iff_eq]

theorem node?_erase (hs : spot ≠ []) :
    node? { d with nodes := d.nodes.erase spot } q = if spot = q then none else d.node? q := by
  by_cases hq : q = []
  · subst hq
    rw [if_neg hs]
    rfl
  · rw [node?_eq hq, node?_eq hq, Std.ExtTreeMap.getElem?_erase]
    simp only [Std.compare_eq_iff_eq]

/-- What a path leads to, if anything. -/
def at? (d : Disk) (p : Path) : Option Node := (d.find p).toOption

theorem at?_eq_some : d.at? p = some n ↔ d.place p = .ok p.spot ∧ d.node? p.spot = some n := by
  rw [at?, find]
  cases hp : d.place p with
  | error e => exact ⟨nofun, nofun⟩
  | ok q =>
    rw [place_eq_spot hp]
    simp only [bind, Except.bind, true_and]
    cases d.node? p.spot with
    | none => exact ⟨nofun, nofun⟩
    | some m => exact Iff.rfl

theorem isSome_at? : (d.at? p).isSome = true ↔
    d.place p = .ok p.spot ∧ (d.node? p.spot).isSome = true := by
  simp only [Option.isSome_iff_exists, at?_eq_some, exists_and_left]

theorem at?_of_place (h : d.place p = .ok p.spot) : d.at? p = d.node? p.spot :=
  Option.ext fun _ => at?_eq_some.trans (and_iff_right h)

/-- Paths that led to something at one place lead to the same, with more directories too. -/
theorem at?_eq_of_spot {p' : Path}
    (hd : ∀ q, d.node? q = some .directory → d'.node? q = some .directory)
    (h : (d.at? p).isSome = true) (h' : (d.at? p').isSome = true) (hs : p.spot = p'.spot) :
    d'.at? p = d'.at? p' := by
  rw [at?_of_place (place_mono hd (isSome_at?.mp h).1),
    at?_of_place (place_mono hd (isSome_at?.mp h').1), hs]

/-- A path that leads nowhere leads to no place at which something is. -/
theorem at?_eq_none {p' : Path}
    (hd : ∀ q, d'.node? q = some .directory → d.node? q = some .directory) (h : d.at? p = none)
    (h' : (d.at? p').isSome = true) (hs : p.spot = p'.spot) : d'.at? p = none := by
  by_contra hsome
  have hplace := place_mono hd (isSome_at?.mp (Option.isSome_iff_ne_none.mpr hsome)).1
  rw [at?_of_place hplace, hs] at h
  have hnode := (isSome_at?.mp h').2
  rw [h] at hnode
  cases hnode

/-- A path leads to what it led to if no directory came or went and nothing is different at its
spot. -/
theorem at?_congr (hdir : ∀ q, d'.node? q = some .directory ↔ d.node? q = some .directory)
    (hp : d'.node? p.spot = d.node? p.spot) : d'.at? p = d.at? p := by
  have hplace {q : Place} : d'.place p = .ok q ↔ d.place p = .ok q :=
    ⟨place_mono fun q => (hdir q).mp, place_mono fun q => (hdir q).mpr⟩
  exact Option.ext fun n => by rw [at?_eq_some, at?_eq_some, hplace, hp]

theorem node?_of_nodes (h : d'.nodes = d.nodes) (q : Place) : d'.node? q = d.node? q := by
  rw [node?.eq_def, node?.eq_def, h]

theorem at?_of_nodes (h : d'.nodes = d.nodes) : d'.at? p = d.at? p :=
  at?_congr (fun q => by rw [node?_of_nodes h]) (node?_of_nodes h _)

theorem present_eq : d.present p = (d.at? p).isSome := by
  rw [present, at?]
  cases d.find p <;> rfl

theorem walk_of_directory (h : d.at? p = some .directory) :
    ∃ m, d.walk [] p.steps = .ok m ∧ d.node? m = some .directory := by
  obtain ⟨hplace, hd⟩ := at?_eq_some.mp h
  rw [place] at hplace
  obtain ⟨_, -, hwalk⟩ := except_bind_eq_ok.mp hplace
  split at hwalk
  · exact walk_concat hwalk
  · exact ⟨_, hwalk, hd⟩

/-- Where something is in a directory, that directory is there. -/
theorem walk_of_join {dir : Path} {inner : String} (h : Path.IsEntry inner)
    (hn : d.at? (dir.join inner) = some n) :
    ∃ m, d.walk [] dir.steps = .ok m ∧ d.node? m = some .directory := by
  have hplace := (at?_eq_some.mp hn).1
  rw [place] at hplace
  obtain ⟨_, -, hwalk⟩ := except_bind_eq_ok.mp hplace
  rw [Path.steps_join h.unslashed h.nonempty] at hwalk
  split at hwalk
  · obtain ⟨m, hm, -⟩ := walk_concat hwalk
    exact walk_concat hm
  · exact walk_concat hwalk

/-- The parent of any name in a directory is that directory. -/
theorem walk_parent_join {dir parent : Path} {inner : String} (h : Path.IsEntry inner)
    (hd : ∃ m, d.walk [] dir.steps = .ok m ∧ d.node? m = some .directory)
    (hp : (dir.join inner).parent? = some parent) :
    ∃ m, d.walk [] parent.steps = .ok m ∧ d.node? m = some .directory := by
  obtain ⟨m, hm, hd⟩ := hd
  refine ⟨m, ?_, hd⟩
  have hplain := Path.plainSteps_parent? h hp
  rw [Path.plainSteps, Path.plainSteps] at hplain
  rw [← walk_filter hd, hplain, walk_filter hd, hm]

/-- Where something is in a directory, the parent of any name in it is that directory. -/
theorem walk_parent? {dir parent : Path} {inner inner' : String} (h : Path.IsEntry inner)
    (h' : Path.IsEntry inner') (hn : d.at? (dir.join inner) = some n)
    (hp : (dir.join inner').parent? = some parent) :
    ∃ m, d.walk [] parent.steps = .ok m ∧ d.node? m = some .directory :=
  walk_parent_join h' (walk_of_join h hn) hp

/-! ## Failures -/

theorem checkText_ne_alreadyExists {e : IoError} (h : checkText p = .error e) :
    e.kind ≠ .alreadyExists := by
  rw [checkText] at h
  split at h
  · cases h
    exact nofun
  · split at h
    · cases h
      exact nofun
    · split at h
      · cases h
        exact nofun
      · cases h

theorem walk_ne_alreadyExists {e : IoError} (h : d.walk start l = .error e) :
    e.kind ≠ .alreadyExists := by
  induction l generalizing start with
  | nil => cases h
  | cons s rest ih =>
    rw [walk] at h
    split at h
    · cases h
      exact nofun
    · cases h
      exact nofun
    · split at h
      · exact ih h
      · split at h
        · exact ih h
        · split at h
          · cases h
            exact nofun
          · exact ih h

theorem place_ne_alreadyExists {e : IoError} (h : d.place p = .error e) :
    e.kind ≠ .alreadyExists := by
  rw [place] at h
  cases hc : checkText p with
  | error f =>
    rw [hc] at h
    cases h
    exact checkText_ne_alreadyExists hc
  | ok u =>
    rw [hc] at h
    exact walk_ne_alreadyExists h

theorem find_ne_alreadyExists {e : IoError} (h : d.find p = .error e) :
    e.kind ≠ .alreadyExists := by
  rw [find] at h
  cases hp : d.place p with
  | error f =>
    rw [hp] at h
    cases h
    exact place_ne_alreadyExists hp
  | ok q =>
    rw [hp] at h
    simp only [bind, Except.bind] at h
    split at h
    · cases h
    · cases h
      exact nofun

end Lineage.Disk
