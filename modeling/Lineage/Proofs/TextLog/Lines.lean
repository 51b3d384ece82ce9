import Lineage.Proofs.Text.Utf8
import Lineage.TextLog.Replay

/-!
# Lines of a text log and of its file

Which characters are in a line that was written for a compaction (`toList_compactionLine`,
`not_mem_listed`). A reason is read back from its line (`parse_reasonLine`), and lines that were
written to a file are its lines (`linesOf_bytesOf`).
-/

namespace Lineage

/-! ## Bytes below 128 -/

/-- A byte below 128 is a character of its own, and no part of another one. -/
theorem eq_of_mem_utf8EncodeChar {c : Char} {x : UInt8} (h : x ∈ String.utf8EncodeChar c)
    (hx : x.toNat < 128) : c.toNat = x.toNat := by
  -- Every byte of a longer encoding has its highest bit set.
  have hhigh {n : Nat} (hn : 128 ≤ n) (hn' : n < 256) : x ≠ UInt8.ofNat n := by
    rintro rfl
    rw [Utf8.toNat_byte hn'] at hx
    omega
  have hval : c.val.toNat = c.toNat := rfl
  rw [String.utf8EncodeChar, hval] at h
  generalize c.toNat = v at h ⊢
  split at h
  · rw [List.mem_singleton.mp h, Utf8.toNat_byte (by omega)]
  · exfalso
    split at h
    · simp only [List.mem_cons, List.not_mem_nil, or_false] at h
      rcases h with h | h <;> exact hhigh (by omega) (by omega) h
    · split at h
      · simp only [List.mem_cons, List.not_mem_nil, or_false] at h
        rcases h with h | h | h <;> exact hhigh (by omega) (by omega) h
      · simp only [List.mem_cons, List.not_mem_nil, or_false] at h
        rcases h with h | h | h | h <;> exact hhigh (by omega) (by omega) h

namespace TextLog

variable {n : String} {names : List String} {s : UInt64} {inputs outputs : List String}

/-! ## Names -/

/-- A name that can stand in a line. -/
structure Listable (n : String) : Prop where
  nonempty : n ≠ ""
  noSpace : ' ' ∉ n.toList
  noComma : ',' ∉ n.toList
  noColon : ':' ∉ n.toList

/-- Names between commas. -/
def listed (names : List String) : List Char := (",".intercalate names).toList

theorem listed_eq : listed names = [','].intercalate (names.map String.toList) :=
  String.toList_intercalate

theorem mem_listed {c : Char} (h : c ∈ listed names) : c = ',' ∨ ∃ n ∈ names, c ∈ n.toList := by
  rw [listed_eq] at h
  induction names with
  | nil => simp at h
  | cons n rest ih =>
    cases rest with
    | nil => exact .inr ⟨n, List.mem_cons_self, by simpa using h⟩
    | cons m rest =>
      rw [List.map_cons, List.map_cons, List.intercalate_cons_cons] at h
      simp only [List.mem_append, List.mem_singleton] at h
      rcases h with (h | rfl) | h
      · exact .inr ⟨n, List.mem_cons_self, h⟩
      · exact .inl rfl
      · exact (ih h).imp_right fun ⟨m, hm, hc⟩ => ⟨m, List.mem_cons_of_mem _ hm, hc⟩

theorem not_mem_listed {c : Char} (hc : c ≠ ',') (h : ∀ n ∈ names, c ∉ n.toList) :
    c ∉ listed names := by
  intro hmem
  rcases mem_listed hmem with rfl | ⟨n, hn, hmem⟩
  · exact hc rfl
  · exact h n hn hmem

/-! ## Lines -/

theorem parse_reasonLine (r : String) : parse (reasonLine r) = .ok (.reason r) := by
  rw [parse, reasonLine, String.toList_append]
  change Except.ok (Line.reason (String.ofList r.toList)) = _
  rw [String.ofList_toList]

theorem toList_compactionLine : (compactionLine s inputs outputs).toList =
    'C' :: ' ' :: (Nat.toDigits 10 s.toNat ++ ' ' :: (listed inputs ++ ':' :: listed outputs)) := by
  have hdigits : (toString s.toNat).toList = Nat.toDigits 10 s.toNat := Nat.toList_repr
  simp only [compactionLine, String.toList_append, hdigits, List.append_assoc]
  rfl

/-! ## Lines in a file -/

variable {l : String} {lines : List String}

/-- A text that can be a line of a file. -/
structure OneLine (l : String) : Prop where
  noNewline : '\n' ∉ l.toList
  noReturn : l.toList.getLast? ≠ some '\r'

theorem OneLine.newline_not_mem (h : OneLine l) : 10 ∉ Bytes.ofText l := by
  intro hmem
  obtain ⟨c, hc, hbyte⟩ := List.mem_flatMap.mp hmem
  have hcode := eq_of_mem_utf8EncodeChar hbyte (by decide)
  have hnewline : c = '\n' := Char.toNat_inj.mp hcode
  exact h.noNewline (hnewline ▸ hc)

theorem OneLine.getLast?_ne (h : OneLine l) : (Bytes.ofText l).getLast? ≠ some 13 := by
  intro hlast
  obtain ⟨c, hc⟩ : ∃ c, l.toList.getLast? = some c := by
    cases hl : l.toList.getLast? with
    | none =>
      rw [Bytes.ofText, List.getLast?_eq_none_iff.mp hl] at hlast
      cases hlast
    | some c => exact ⟨c, rfl⟩
  obtain ⟨cs, hcs⟩ := List.getLast?_eq_some_iff.mp hc
  have hne : String.utf8EncodeChar c ≠ [] := by
    obtain ⟨x, tail, henc, -⟩ := Utf8.decodeChar_encode c []
    rw [henc]
    exact List.cons_ne_nil x tail
  rw [Bytes.ofText, hcs, List.flatMap_append, List.flatMap_singleton, List.getLast?_append,
    List.getLast?_eq_some_getLast hne, Option.some_or, Option.some.injEq] at hlast
  have hcode := eq_of_mem_utf8EncodeChar (hlast ▸ List.getLast_mem hne) (by decide)
  have hreturn : c = '\r' := Char.toNat_inj.mp hcode
  exact h.noReturn (hreturn ▸ hc)

theorem splitOn_bytesOf (h : ∀ l ∈ lines, OneLine l) :
    (bytesOf lines).splitOn 10 = lines.map Bytes.ofText ++ [[]] := by
  induction lines with
  | nil => rfl
  | cons l rest ih =>
    rw [List.forall_mem_cons] at h
    have hbytes : bytesOf (l :: rest) = Bytes.ofText l ++ 10 :: bytesOf rest := by
      simp [bytesOf]
    rw [hbytes, List.splitOn_append_cons_self, List.splitOn_eq_singleton h.1.newline_not_mem,
      ih h.2]
    rfl

/-- The lines of a file are those that were written to it. -/
theorem linesOf_bytesOf (h : ∀ l ∈ lines, OneLine l) :
    linesOf (bytesOf lines) = lines.map Bytes.ofText := by
  have hkept : ∀ l ∈ lines, (if (Bytes.ofText l).getLast? = some 13 then
      (Bytes.ofText l).dropLast else Bytes.ofText l) = Bytes.ofText l :=
    fun l hl => if_neg (h l hl).getLast?_ne
  rw [linesOf, splitOn_bytesOf h]
  simpa using hkept

end TextLog

end Lineage
