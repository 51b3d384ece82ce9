import Lineage.Proofs.Recording
import Lineage.Tracker.Comparison

/-!
# Prefixes of interest

Of two bounds only as much as the prefix is long is compared with it. That is enough to tell whether
some key between them begins with the prefix (`mayContain_iff`). So a comparison with prefixes gives
what the same comparison gives without them, less the tables that are known to hold no key of
interest (`compareSnapshots_restricted`).
-/

namespace Lineage

variable {a b p first last : Bytes} {n : Nat}

/-! ## The order of byte strings -/

theorem isLE_compare_iff : (compare a b).isLE = true ↔ a ≤ b := by
  induction a generalizing b with
  | nil => cases b <;> simp [List.nil_le]
  | cons x a ih =>
    cases b with
    | nil => simp
    | cons y b =>
      rw [List.compare_cons_cons, Ordering.isLE_then_iff_and, ih, List.cons_le_cons_iff]
      rcases Std.lt_trichotomy x y with hxy | rfl | hxy
      · simp [Std.compare_eq_lt.mpr hxy, hxy]
      · simp
      · simp [Std.compare_eq_gt.mpr hxy, UInt8.lt_asymm hxy, (Std.ne_of_lt hxy).symm]

/-- What comes first still does when both are cut. -/
theorem take_le_take (h : a ≤ b) : a.take n ≤ b.take n := by
  induction n generalizing a b with
  | zero => exact List.le_refl _
  | succ n ih =>
    cases a with
    | nil => exact List.nil_le _
    | cons x a =>
      cases b with
      | nil => exact absurd h (by simp)
      | cons y b =>
        rw [List.take_succ_cons, List.take_succ_cons, List.cons_le_cons_iff]
        exact (List.cons_le_cons_iff.mp h).imp_right fun h => ⟨h.1, ih h.2⟩

/-! ## Ranges of keys -/

/-- Some key between two bounds begins with a prefix. -/
def Meets (p first last : Bytes) : Prop := ∃ k : Bytes, first ≤ k ∧ k ≤ last ∧ p <+: k

/-- It suffices to compare a prefix with as much of the bounds. -/
theorem meets_iff (h : first ≤ last) :
    Meets p first last ↔ first.take p.length ≤ p ∧ p ≤ last.take p.length := by
  constructor
  · rintro ⟨k, hfirst, hlast, hp⟩
    have hcut : p = k.take p.length := List.prefix_iff_eq_take.mp hp
    have hfirst := take_le_take (n := p.length) hfirst
    have hlast := take_le_take (n := p.length) hlast
    rw [← hcut] at hfirst hlast
    exact ⟨hfirst, hlast⟩
  · rintro ⟨hfirst, hlast⟩
    rcases List.le_total first p with hle | hle
    · exact ⟨p, hle, List.le_trans hlast (List.take_prefix _ _).le, List.prefix_refl p⟩
    · -- The prefix comes before the first key, so it can only be what that one begins with.
      have hcut : p ≤ first.take p.length := by
        simpa using take_le_take (n := p.length) hle
      have heq : p = first.take p.length := List.le_antisymm hcut hfirst
      exact ⟨first, List.le_refl _, h, List.prefix_iff_eq_take.mpr heq⟩

/-- The keys that a table of a column family lies between. -/
structure KeyRange where
  family : String
  first : Bytes
  last : Bytes

def LiveFile.range (f : LiveFile) : KeyRange := ⟨f.family, f.smallest, f.largest⟩

/-- What the graph tells of a table, if it tells all of it. -/
def Graph.rangeOf? (g : Graph) (name : String) : Option KeyRange := do
  let n ← g.node? name
  return ⟨← n.family, ← n.first, ← n.last⟩

/-- The tables that a snapshot tells of. -/
def Snapshot.files (s : Snapshot) : List LiveFile := s.live.toOption.getD []

/-- What a snapshot tells of a table; of two tables of one name the first one counts. -/
def Snapshot.rangeOf? (s : Snapshot) (name : String) : Option KeyRange :=
  (s.files.find? fun f => f.name? = some name).map LiveFile.range

/-- What is known of the keys of a table when two snapshots are compared: what the graph tells, else
the later snapshot, else the earlier one. -/
def Tracker.rangeOf? (t : Tracker) (later earlier : Snapshot) (name : String) : Option KeyRange :=
  (t.graph.rangeOf? name).or ((later.rangeOf? name).or (earlier.rangeOf? name))

namespace Tracker

variable {t : Tracker} {later earlier : Snapshot} {g : Graph} {name family : String}
  {prefixes : Std.ExtTreeMap String Bytes} {bounds : Std.ExtTreeMap String LiveFile}
  {files : List LiveFile} {o : Options} {live : LiveFiles}

theorem mayContain_iff (hne : prefixes.isEmpty = false) (h : first ≤ last) :
    mayContain prefixes family first last = true ↔
      ∃ p, prefixes[family]? = some p ∧ Meets p first last := by
  rw [mayContain, hne]
  cases hp : prefixes[family]? with
  | none => simp
  | some p => simp [meets_iff h, isLE_compare_iff]

theorem isEmpty_eq_false_of_getElem? (h : prefixes[family]? = some p) :
    prefixes.isEmpty = false := by
  apply Std.ExtTreeMap.isEmpty_eq_false_iff.mpr
  rintro rfl
  simp at h

/-! ## What is known of a table -/

theorem getElem?_insertIfNew {m : Std.ExtTreeMap String LiveFile} {n : String} {f : LiveFile} :
    (m.insertIfNew n f)[name]? = m[name]?.or (if n = name then some f else none) := by
  simp only [Std.ExtTreeMap.getElem?_insertIfNew, Std.ExtTreeMap.mem_iff_isSome_getElem?]
  by_cases hn : n = name
  · subst hn
    cases m[n]? <;> simp
  · simp [hn]

theorem getElem?_foldl_insertIfNew (m : Std.ExtTreeMap String LiveFile) :
    (files.foldl (fun m f => f.name?.elim m fun n => m.insertIfNew n f) m)[name]? =
      m[name]?.or (files.find? fun f => f.name? = some name) := by
  induction files generalizing m with
  | nil => simp
  | cons f files ih =>
    rw [List.foldl_cons, ih, List.find?_cons]
    cases hf : f.name? with
    | none => simp
    | some n =>
      rw [Option.elim_some, getElem?_insertIfNew, Option.or_assoc]
      by_cases hn : n = name <;> simp [hn]

theorem getElem?_boundsOf :
    (boundsOf files)[name]? = files.find? fun f => f.name? = some name := by
  rw [boundsOf, getElem?_foldl_insertIfNew]
  simp

theorem ofInterest_eq : ofInterest prefixes g bounds name =
    ((g.rangeOf? name).or (bounds[name]?.map LiveFile.range)).all fun r =>
      mayContain prefixes r.family r.first r.last := by
  rw [ofInterest, Graph.rangeOf?]
  cases bounds[name]? <;> cases g.node? name with
  | none => rfl
  | some n =>
    obtain ⟨_, _, first, last, family, _, _⟩ := n
    cases first <;> cases last <;> cases family <;> rfl

/-! ## Comparisons -/

/-- The comparison of all that snapshots tell of, whatever the prefixes. -/
def compareWhole (t : Tracker) (later earlier : Snapshot) : Except Error Comparison := do
  let laterNames ← liveNames t.options later.live
  let earlierNames ← liveNames t.options earlier.live
  compareNames t.graph laterNames earlierNames earlier.generation t.options.maxLevels

theorem compareSnapshots_eq_map : compareSnapshots t later earlier =
    (compareWhole t later earlier).map fun c => if later.prefixes.isEmpty then c else
      c.restrict (ofInterest later.prefixes t.graph (boundsOf (later.files ++ earlier.files))) := by
  rw [compareSnapshots, compareWhole, Snapshot.files, Snapshot.files]
  -- The tables are asked for once more for their bounds, and the answer is the same.
  cases later.live with
  | error e => rfl
  | ok files =>
    cases earlier.live with
    | error e => cases liveNames t.options (.ok files) <;> rfl
    | ok files' =>
      cases liveNames t.options (.ok files) with
      | error e => rfl
      | ok names =>
        cases liveNames t.options (.ok files') with
        | error e => rfl
        | ok names' =>
          change (compareNames t.graph names names' _ _ >>= _) = Except.map _ (compareNames ..)
          cases compareNames t.graph names names' earlier.generation t.options.maxLevels with
          | error e => rfl
          | ok c =>
            change ite _ _ _ = _
            split <;> rfl

theorem rangeOf?_eq : t.rangeOf? later earlier name = (t.graph.rangeOf? name).or
    ((boundsOf (later.files ++ earlier.files))[name]?.map LiveFile.range) := by
  rw [getElem?_boundsOf, List.find?_append, Option.map_or]
  rfl

/-- Keys of interest may be in a table: nothing is known of its keys, or some key among them begins
with the prefix of their column family. -/
def MayHold (prefixes : Std.ExtTreeMap String Bytes) (known : Option KeyRange) : Prop :=
  known = none ∨ ∃ r p, known = some r ∧ prefixes[r.family]? = some p ∧ Meets p r.first r.last

theorem ofInterest_iff (hne : later.prefixes.isEmpty = false)
    (hordered : ∀ r ∈ t.rangeOf? later earlier name, r.first ≤ r.last) :
    ofInterest later.prefixes t.graph (boundsOf (later.files ++ earlier.files)) name = true ↔
      MayHold later.prefixes (t.rangeOf? later earlier name) := by
  rw [ofInterest_eq, ← rangeOf?_eq, MayHold]
  cases hr : t.rangeOf? later earlier name with
  | none => simp
  | some r => simp [mayContain_iff hne (hordered r hr)]

/-- Whether keys of a column family between two bounds may begin with its prefix is told exactly. So
a comparison with prefixes gives the tables that the same comparison gives without them, in their
order, less those known to hold no key of interest; and all keys have to be compared if they have to
be without prefixes. -/
theorem compareSnapshots_restricted :
    (∀ (prefixes : Std.ExtTreeMap String Bytes) (family : String) (p first last : Bytes),
      prefixes[family]? = some p → first ≤ last →
        (mayContain prefixes family first last = true ↔
          ∃ k : Bytes, first ≤ k ∧ k ≤ last ∧ p <+: k)) ∧
    ∀ (t : Tracker) (later earlier : Snapshot), later.prefixes.isEmpty = false →
      (∀ names, compareSnapshots t { later with prefixes := ∅ } earlier = .ok (.incremental names) →
        ∃ keep : String → Bool,
          compareSnapshots t later earlier = .ok (.incremental (names.filter keep)) ∧
          ∀ name ∈ names, (∀ r ∈ t.rangeOf? later earlier name, r.first ≤ r.last) →
            (keep name = true ↔ MayHold later.prefixes (t.rangeOf? later earlier name))) ∧
      (compareSnapshots t later earlier = .ok .full ↔
        compareSnapshots t { later with prefixes := ∅ } earlier = .ok .full) := by
  refine ⟨fun prefixes family p first last hp hle => ?_, fun t later earlier hne => ?_⟩
  · rw [mayContain_iff (isEmpty_eq_false_of_getElem? hp) hle, hp]
    simp [Meets]
  have hwhole : compareSnapshots t { later with prefixes := ∅ } earlier =
      compareWhole t later earlier := by
    rw [compareSnapshots_eq_map, Std.ExtTreeMap.isEmpty_empty]
    exact id_map (f := Except Error) (compareWhole t later earlier)
  have heach : compareSnapshots t later earlier = (compareWhole t later earlier).map fun c =>
      c.restrict (ofInterest later.prefixes t.graph (boundsOf (later.files ++ earlier.files))) := by
    rw [compareSnapshots_eq_map, hne]
    rfl
  rw [hwhole, heach]
  refine ⟨fun names hnames => ?_, ?_⟩
  · rw [hnames]
    exact ⟨_, rfl, fun name _ hordered => ofInterest_iff hne hordered⟩
  · cases compareWhole t later earlier with
    | error e => simp [Except.map]
    | ok c => cases c <;> simp [Except.map, Comparison.restrict]

end Tracker

end Lineage

/-! ## Tables of which the graph, a snapshot or nobody tells -/

namespace Lineage.Sample

open Tracker (MayHold compareSnapshots mayContain)

/-- A table with its range, as a snapshot tells it. -/
def sized (file family first last : String) : LiveFile :=
  ⟨file, family, 0, Bytes.ofText first, Bytes.ofText last⟩

/-- A table with its range, as the graph tells it. -/
def ranging (name first last : String) : FileInfo where
  name := name
  first := some (Bytes.ofText first)
  last := some (Bytes.ofText last)
  family := some "keyTable"

/-- One compaction replaced three files, of which one is known by its name alone. -/
def merged : Tracker :=
  { tracker with
    graph := ({} : Graph).add [{ name := "p" }, ranging "q" "b/1" "b/9", ranging "r" "c/1" "c/9"]
      [{ name := "o" }] 10 }

/-- Only keys of `keyTable` that begin with `b/` are of interest. -/
def choosy : Snapshot where
  generation := 10
  dir := ⟨"/late"⟩
  live := .ok [sized "l.sst" "keyTable" "a" "z", sized "m.sst" "fileTable" "a" "z",
    sized "o.sst" "keyTable" "a" "z"]
  prefixes := .ofList [("keyTable", Bytes.ofText "b/")]

/-- An empty store. -/
def blank : Snapshot where
  generation := 5
  dir := ⟨"/early"⟩
  live := .ok []

/-- One table that the comparison gives is known to hold another family's keys, one to hold other keys
of the family; of `p` nothing is known. -/
theorem compareSnapshots_choosy :
    compareSnapshots merged { choosy with prefixes := ∅ } blank =
      .ok (.incremental ["l", "m", "p", "q", "r"]) ∧
    compareSnapshots merged choosy blank = .ok (.incremental ["l", "p", "q"]) ∧
    (∃ keep : String → Bool,
      compareSnapshots merged choosy blank =
        .ok (.incremental (["l", "m", "p", "q", "r"].filter keep)) ∧
      ∀ name ∈ ["l", "m", "p", "q", "r"],
        (keep name = true ↔ MayHold choosy.prefixes (merged.rangeOf? choosy blank name))) ∧
    (mayContain choosy.prefixes "keyTable" (Bytes.ofText "a") (Bytes.ofText "b/1") = true ↔
      ∃ k : Bytes, Bytes.ofText "a" ≤ k ∧ k ≤ Bytes.ofText "b/1" ∧ Bytes.ofText "b/" <+: k) := by
  obtain ⟨hne, hwhole, hrestricted, hordered, hprefix, hle⟩ :
      choosy.prefixes.isEmpty = false ∧
      (compareSnapshots merged { choosy with prefixes := ∅ } blank).toOption =
        some (.incremental ["l", "m", "p", "q", "r"]) ∧
      (compareSnapshots merged choosy blank).toOption = some (.incremental ["l", "p", "q"]) ∧
      (∀ name ∈ ["l", "m", "p", "q", "r"], ∀ r ∈ merged.rangeOf? choosy blank name,
        r.first ≤ r.last) ∧
      choosy.prefixes["keyTable"]? = some (Bytes.ofText "b/") ∧
      Bytes.ofText "a" ≤ Bytes.ofText "b/1" := by
    decide +kernel
  obtain ⟨keep, hkeep, hexact⟩ :=
    (Tracker.compareSnapshots_restricted.2 merged choosy blank hne).1 _
      (eq_ok_of_toOption hwhole)
  refine ⟨eq_ok_of_toOption hwhole, eq_ok_of_toOption hrestricted, ⟨keep, hkeep, fun name hname => ?_⟩, ?_⟩
  · exact hexact name hname (hordered name hname)
  · exact Tracker.compareSnapshots_restricted.1 _ _ _ _ _ hprefix hle

end Lineage.Sample
