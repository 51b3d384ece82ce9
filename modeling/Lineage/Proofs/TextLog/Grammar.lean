import Lineage.Proofs.Disk.Places
import Lineage.Proofs.Text.Decimal
import Lineage.Proofs.TextLog.Lines

/-!
# Which lines tell of what

`CompactionForm` and `SnapshotForm` say which lines have a place for a number, as texts put together
from their parts. On a line of either form reading depends on the number and on the names alone
(`parse_of_compactionForm`, `parse_of_snapshotForm`); no other line tells of a compaction, and none
is an error (`parse_cases`). So the lines that tell of a compaction are known, and so are those
that cannot be read (`parse_iff`).
-/

namespace Lineage.TextLog

variable {line number left right id time side : String} {names : List String}

/-! ## Forms -/

/-- A line of a sequence number and two sides. -/
structure CompactionForm (line number left right : String) : Prop where
  eq : line = "C " ++ number ++ " " ++ left ++ ":" ++ right
  noSpace : ∀ s ∈ [number, left, right], ' ' ∉ s.toList
  noColon : ∀ s ∈ [left, right], ':' ∉ s.toList

/-- A line of a sequence number, a snapshot's id and the time of its creation. -/
structure SnapshotForm (line number id time : String) : Prop where
  eq : line = "S " ++ number ++ " " ++ id ++ " " ++ time
  noSpace : ∀ s ∈ [number, id, time], ' ' ∉ s.toList

/-- The texts between a side's commas, less the empty ones. -/
def Parts (side : String) (names : List String) : Prop :=
  ∃ parts : List String, parts ≠ [] ∧ (∀ p ∈ parts, ',' ∉ p.toList) ∧
    side = ",".intercalate parts ∧ names = parts.filter (· ≠ "")

/-! ## Splitting -/

section

variable {c : Char} {cs xs ys zs : List Char} {parts : List (List Char)}

theorem splitOn_eq_iff : cs.splitOn c = parts ↔
    parts ≠ [] ∧ (∀ p ∈ parts, c ∉ p) ∧ [c].intercalate parts = cs := by
  constructor
  · rintro rfl
    exact ⟨List.splitOn_ne_nil c cs, fun p => not_mem_of_mem_splitOn, List.intercalate_splitOn c⟩
  · rintro ⟨hne, hparts, rfl⟩
    exact List.splitOn_intercalate c hparts hne

theorem splitOn_eq_pair : cs.splitOn c = [xs, ys] ↔ cs = xs ++ c :: ys ∧ c ∉ xs ∧ c ∉ ys := by
  rw [splitOn_eq_iff, and_comm, and_comm (b := _ = cs), eq_comm (a := cs)]
  simp [List.intercalate_cons_cons]

theorem splitOn_eq_triple : cs.splitOn c = [xs, ys, zs] ↔
    cs = xs ++ c :: (ys ++ c :: zs) ∧ c ∉ xs ∧ c ∉ ys ∧ c ∉ zs := by
  rw [splitOn_eq_iff, and_comm, and_comm (b := _ = cs), eq_comm (a := cs)]
  simp [List.intercalate_cons_cons]

end

theorem compactionForm_iff : CompactionForm line number left right ↔
    ∃ rest files, line.toList = 'C' :: ' ' :: rest ∧ rest.splitOn ' ' = [number.toList, files] ∧
      files.splitOn ':' = [left.toList, right.toList] := by
  constructor
  · rintro ⟨rfl, hspace, hcolon⟩
    simp only [List.forall_mem_cons] at hspace hcolon
    refine ⟨number.toList ++ ' ' :: (left.toList ++ ':' :: right.toList),
      left.toList ++ ':' :: right.toList, ?_, splitOn_eq_pair.mpr ⟨rfl, hspace.1, ?_⟩,
      splitOn_eq_pair.mpr ⟨rfl, hcolon.1, hcolon.2.1⟩⟩
    · simp
    · simp [hspace.2.1, hspace.2.2.1]
  · rintro ⟨rest, files, hline, hrest, hfiles⟩
    obtain ⟨rfl, hleft, hright⟩ := splitOn_eq_pair.mp hfiles
    obtain ⟨rfl, hnumber, hspace⟩ := splitOn_eq_pair.mp hrest
    refine ⟨?_, ?_, ?_⟩
    · rw [← String.toList_inj, hline]
      simp
    · simp at hspace
      simp [hnumber, hspace]
    · simp [hleft, hright]

theorem snapshotForm_iff : SnapshotForm line number id time ↔
    ∃ rest, line.toList = 'S' :: ' ' :: rest ∧
      rest.splitOn ' ' = [number.toList, id.toList, time.toList] := by
  constructor
  · rintro ⟨rfl, hspace⟩
    simp only [List.forall_mem_cons] at hspace
    refine ⟨number.toList ++ ' ' :: (id.toList ++ ' ' :: time.toList), ?_,
      splitOn_eq_triple.mpr ⟨rfl, hspace.1, hspace.2.1, hspace.2.2.1⟩⟩
    simp
  · rintro ⟨rest, hline, hrest⟩
    obtain ⟨rfl, hnumber, hid, htime⟩ := splitOn_eq_triple.mp hrest
    refine ⟨?_, by simp [hnumber, hid, htime]⟩
    rw [← String.toList_inj, hline]
    simp

theorem splitOn_comma_eq {parts : List String} : side.toList.splitOn ',' = parts.map String.toList ↔
    parts ≠ [] ∧ (∀ p ∈ parts, ',' ∉ p.toList) ∧ side = ",".intercalate parts := by
  have hcommas : [','].intercalate (parts.map String.toList) = side.toList ↔
      side = ",".intercalate parts := by
    rw [← String.toList_inj, String.toList_intercalate, eq_comm]
    rfl
  rw [splitOn_eq_iff, hcommas]
  simp

theorem namesOf_of_splitOn {parts : List String}
    (h : side.toList.splitOn ',' = parts.map String.toList) :
    namesOf side.toList = parts.filter (· ≠ "") := by
  rw [namesOf, h, List.filter_map, List.map_map]
  simp [Function.comp_def]

theorem namesOf_eq_iff : namesOf side.toList = names ↔ Parts side names := by
  have hsplit : side.toList.splitOn ',' =
      ((side.toList.splitOn ',').map String.ofList).map String.toList := by
    simp [Function.comp_def]
  constructor
  · rintro rfl
    obtain ⟨hne, hparts, hside⟩ := splitOn_comma_eq.mp hsplit
    exact ⟨_, hne, hparts, hside, namesOf_of_splitOn hsplit⟩
  · rintro ⟨parts, hne, hparts, hside, rfl⟩
    exact namesOf_of_splitOn (splitOn_comma_eq.mpr ⟨hne, hparts, hside⟩)

/-! ## Reading -/

theorem parse_of_compactionForm (h : CompactionForm line number left right) :
    parse line = if right = "" then .ok .deletion else
      match Decimal.readUInt64? number.toList with
      | none => .error (.line line .sequence)
      | some s =>
        if namesOf left.toList = [] ∨ namesOf right.toList = [] then .ok .invalid
        else .ok (.compaction s (namesOf left.toList) (namesOf right.toList)) := by
  obtain ⟨rest, files, hline, hrest, hfiles⟩ := compactionForm_iff.mp h
  cases hnumber : Decimal.readUInt64? number.toList with
  | none =>
    simp only [parse, hline, hrest, parseFiles, hfiles, hnumber, String.toList_eq_nil_iff]
  | some s =>
    simp only [parse, hline, hrest, parseFiles, hfiles, hnumber, String.toList_eq_nil_iff]

theorem parse_of_snapshotForm (h : SnapshotForm line number id time) :
    parse line = match Decimal.readUInt64? time.toList with
      | none => .error (.line line .creationTime)
      | some t => .ok (.snapshot t) := by
  obtain ⟨rest, hline, hrest⟩ := snapshotForm_iff.mp h
  cases htime : Decimal.readUInt64? time.toList with
  | none => simp only [parse, hline, hrest, htime]
  | some t => simp only [parse, hline, hrest, htime]

/-- What a line is read as that is no error and tells of no compaction. -/
inductive Uneventful : Except History.Error Line → Prop where
  | reason (text : String) : Uneventful (.ok (.reason text))
  | deletion : Uneventful (.ok .deletion)
  | invalid : Uneventful (.ok .invalid)

/-- A line of neither form is no error and tells of no compaction. -/
theorem parse_cases (line : String) : (∃ number left right, CompactionForm line number left right) ∨
    (∃ number id time, SnapshotForm line number id time) ∨ Uneventful (parse line) := by
  rw [parse]
  split
  · exact .inr (.inr (.reason _))
  · rename_i rest hline
    split
    · rename_i number id time hrest
      exact .inr (.inl ⟨.ofList number, .ofList id, .ofList time,
        snapshotForm_iff.mpr ⟨rest, hline, by simpa using hrest⟩⟩)
    · exact .inr (.inr .invalid)
  · rename_i rest hline
    split
    · rename_i number files hrest
      rw [parseFiles]
      split
      · rename_i left right hfiles
        exact .inl ⟨.ofList number, .ofList left, .ofList right, compactionForm_iff.mpr
          ⟨rest, files, hline, by simpa using hrest, by simpa using hfiles⟩⟩
      · split
        · exact .inr (.inr .deletion)
        · exact .inr (.inr .invalid)
    · exact .inr (.inr .invalid)
  · exact .inr (.inr .invalid)

section

variable {s : UInt64} {inputs outputs : List String} {e : History.Error}

theorem CompactionForm.parse_eq_ok (h : CompactionForm line number left right) :
    parse line = .ok (.compaction s inputs outputs) ↔
      Decimal.Numeral number.toList s ∧ Parts left inputs ∧ Parts right outputs ∧
        inputs ≠ [] ∧ outputs ≠ [] := by
  rw [parse_of_compactionForm h, ← Decimal.readUInt64?_eq_some_iff, ← namesOf_eq_iff,
    ← namesOf_eq_iff]
  constructor
  · intro hread
    split at hread
    · cases hread
    · split at hread
      · cases hread
      · rename_i hnumber
        split at hread
        · cases hread
        · rename_i hnames
          cases hread
          exact ⟨hnumber, rfl, rfl, not_or.mp hnames⟩
  · rintro ⟨hnumber, rfl, rfl, hne, hne'⟩
    have hright : right ≠ "" := by
      rintro rfl
      exact hne' rfl
    simp only [hright, hnumber, hne, hne', or_self, if_false]

theorem CompactionForm.parse_eq_error (h : CompactionForm line number left right) :
    parse line = .error e ↔ right ≠ "" ∧ (∀ m, ¬ Decimal.Numeral number.toList m) ∧
      e = .line line .sequence := by
  rw [parse_of_compactionForm h, ← Decimal.readUInt64?_eq_none_iff]
  constructor
  · intro hread
    split at hread
    · cases hread
    · rename_i hright
      split at hread
      · rename_i hnumber
        cases hread
        exact ⟨hright, hnumber, rfl⟩
      · split at hread <;> cases hread
  · rintro ⟨hright, hnumber, rfl⟩
    simp only [hright, hnumber, if_false]

theorem SnapshotForm.parse_eq_error (h : SnapshotForm line number id time) :
    parse line = .error e ↔ (∀ m, ¬ Decimal.Numeral time.toList m) ∧
      e = .line line .creationTime := by
  rw [parse_of_snapshotForm h, ← Decimal.readUInt64?_eq_none_iff]
  cases Decimal.readUInt64? time.toList with
  | none => simp [eq_comm]
  | some t => simp

theorem SnapshotForm.parse_ne_compaction (h : SnapshotForm line number id time) :
    parse line ≠ .ok (.compaction s inputs outputs) := by
  rw [parse_of_snapshotForm h]
  cases Decimal.readUInt64? time.toList <;> nofun

end

/-! ## Writing -/

variable {s : UInt64} {inputs outputs : List String}

theorem parts_intercalate (hne : names ≠ []) (h : ∀ n ∈ names, Listable n) :
    Parts (",".intercalate names) names := by
  refine ⟨names, hne, fun n hn => (h n hn).noComma, rfl, (List.filter_eq_self.mpr ?_).symm⟩
  exact fun n hn => decide_eq_true (h n hn).nonempty

theorem compactionForm_compactionLine (hin : ∀ n ∈ inputs, Listable n)
    (hout : ∀ n ∈ outputs, Listable n) :
    CompactionForm (compactionLine s inputs outputs) s.toNat.repr (",".intercalate inputs)
      (",".intercalate outputs) where
  eq := by
    rw [← String.toList_inj, toList_compactionLine]
    simp [listed, Nat.toList_repr]
  noSpace := by
    have hnumber : ' ' ∉ s.toNat.repr.toList := by
      rw [Nat.toList_repr]
      exact fun h => absurd (Decimal.isDigit_of_mem_toDigits h) (by decide)
    have hleft := not_mem_listed (by decide) fun n hn => (hin n hn).noSpace
    have hright := not_mem_listed (by decide) fun n hn => (hout n hn).noSpace
    exact List.forall_mem_cons.mpr ⟨hnumber, List.forall_mem_cons.mpr
      ⟨hleft, List.forall_mem_singleton.mpr hright⟩⟩
  noColon := by
    have hleft := not_mem_listed (by decide) fun n hn => (hin n hn).noColon
    have hright := not_mem_listed (by decide) fun n hn => (hout n hn).noColon
    exact List.forall_mem_cons.mpr ⟨hleft, List.forall_mem_singleton.mpr hright⟩

/-- A compaction of files whose names can stand in a line is read back from its line. -/
theorem parse_compactionLine (hin : ∀ n ∈ inputs, Listable n) (hout : ∀ n ∈ outputs, Listable n)
    (hne : inputs ≠ []) (hne' : outputs ≠ []) :
    parse (compactionLine s inputs outputs) = .ok (.compaction s inputs outputs) := by
  have hnumeral : Decimal.Numeral s.toNat.repr.toList s := by
    rw [Nat.toList_repr]
    exact ⟨_, .inl rfl, Decimal.digits_toDigits⟩
  exact (compactionForm_compactionLine hin hout).parse_eq_ok.mpr
    ⟨hnumeral, parts_intercalate hne hin, parts_intercalate hne' hout, hne, hne'⟩

/-- A line tells of a compaction if it has that form, with a number, and names on either side; those
are its number and its names. It is an error if a number is all that it lacks. And a compaction of
files whose names can stand in a line is what its own line tells of. -/
theorem parse_iff :
    (∀ (line : String) (s : UInt64) (inputs outputs : List String),
      parse line = .ok (.compaction s inputs outputs) ↔
        ∃ number left right, CompactionForm line number left right ∧
          Decimal.Numeral number.toList s ∧ Parts left inputs ∧ Parts right outputs ∧
          inputs ≠ [] ∧ outputs ≠ []) ∧
    (∀ (line : String) (e : History.Error), parse line = .error e ↔
      (∃ number left right, CompactionForm line number left right ∧ right ≠ "" ∧
        (∀ m, ¬ Decimal.Numeral number.toList m) ∧ e = .line line .sequence) ∨
      ∃ number id time, SnapshotForm line number id time ∧
        (∀ m, ¬ Decimal.Numeral time.toList m) ∧ e = .line line .creationTime) ∧
    ∀ (s : UInt64) (inputs outputs : List String), inputs ≠ [] → outputs ≠ [] →
      (∀ n ∈ inputs ++ outputs, Listable n) →
      parse (compactionLine s inputs outputs) = .ok (.compaction s inputs outputs) := by
  refine ⟨fun line s inputs outputs => ⟨fun h => ?_, ?_⟩, fun line e => ⟨fun h => ?_, ?_⟩, ?_⟩
  · rcases parse_cases line with ⟨number, left, right, hform⟩ | ⟨_, _, _, hform⟩ | hplain
    · exact ⟨number, left, right, hform, hform.parse_eq_ok.mp h⟩
    · exact absurd h hform.parse_ne_compaction
    · rw [h] at hplain
      cases hplain
  · rintro ⟨number, left, right, hform, h⟩
    exact hform.parse_eq_ok.mpr h
  · rcases parse_cases line with ⟨number, left, right, hform⟩ | ⟨number, id, time, hform⟩ | hplain
    · exact .inl ⟨number, left, right, hform, hform.parse_eq_error.mp h⟩
    · exact .inr ⟨number, id, time, hform, hform.parse_eq_error.mp h⟩
    · rw [h] at hplain
      cases hplain
  · rintro (⟨number, left, right, hform, h⟩ | ⟨number, id, time, hform, h⟩)
    · exact hform.parse_eq_error.mpr h
    · exact hform.parse_eq_error.mpr h
  · intro s inputs outputs hne hne' hnames
    rw [List.forall_mem_append] at hnames
    exact parse_compactionLine hnames.1 hnames.2 hne hne'

end Lineage.TextLog

namespace Lineage.Sample

open TextLog

/-- Names between commas where one is empty, a number with a plus sign, and a word in place of a
number. -/
theorem parse_crooked :
    (["000023", "000024"] ≠ [] ∧ ["000030"] ≠ [] ∧
      ∀ n ∈ ["000023", "000024"] ++ ["000030"], Listable n) ∧
    parse (compactionLine 1291 ["000023", "000024"] ["000030"]) =
      .ok (.compaction 1291 ["000023", "000024"] ["000030"]) ∧
    parse "C +7 a,,b:c" = .ok (.compaction 7 ["a", "b"] ["c"]) ∧
    parse "C seven 1:2" = .error (.line "C seven 1:2" .sequence) ∧
    parse "S 1 snap later" = .error (.line "S 1 snap later" .creationTime) := by
  obtain ⟨hcompaction, herror, hwritten⟩ := parse_iff
  have hlistable : ∀ n ∈ ["000023", "000024"] ++ ["000030"], Listable n := by
    have hall : ∀ n ∈ ["000023", "000024"] ++ ["000030"],
        n ≠ "" ∧ ' ' ∉ n.toList ∧ ',' ∉ n.toList ∧ ':' ∉ n.toList := by decide
    exact fun n hn => ⟨(hall n hn).1, (hall n hn).2.1, (hall n hn).2.2.1, (hall n hn).2.2.2⟩
  refine ⟨⟨by decide, by decide, hlistable⟩, hwritten _ _ _ (by decide) (by decide) hlistable,
    (hcompaction _ _ _ _).mpr ⟨"+7", "a,,b", "c", ?_, ?_, ?_, ?_, by decide, by decide⟩,
    (herror _ _).mpr (.inl ⟨"seven", "1", "2", ?_, by decide, ?_, rfl⟩),
    (herror _ _).mpr (.inr ⟨"1", "snap", "later", ?_, ?_, rfl⟩)⟩
  · exact ⟨by decide, by decide, by decide⟩
  · exact ⟨['7'], .inr rfl, by decide, List.forall_mem_singleton.mpr rfl, rfl⟩
  · exact ⟨["a", "", "b"], by decide, by decide, rfl, rfl⟩
  · exact ⟨["c"], by decide, by decide, rfl, rfl⟩
  · exact ⟨by decide, by decide, by decide⟩
  · exact Decimal.readUInt64?_eq_none_iff.mp (by decide)
  · exact ⟨by decide, by decide⟩
  · exact Decimal.readUInt64?_eq_none_iff.mp (by decide)

end Lineage.Sample
