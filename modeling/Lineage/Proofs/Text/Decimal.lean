import Lineage.Text.Decimal

/-!
# Reading and writing decimal numbers

`Decimal.Numeral` says which texts write a number of 64 bits. Those are read, as that number, and no
others are (`readUInt64?_eq_some_iff`); the digits of a number, padded or not, are among them. Digits
are the padded number that they write (`Digits.eq_padded`), and that number without padding if they
do not begin with a zero to spare (`Digits.eq_toDigits`).
-/

namespace Lineage.Decimal

variable {width n : Nat} {c : Char} {cs : List Char} {m : UInt64}

/-! ## Reading -/

/-- One or more digits that write a number. -/
structure Digits (cs : List Char) (n : Nat) : Prop where
  nonempty : cs ≠ []
  digits : ∀ c ∈ cs, c.isDigit = true
  value : Nat.ofDigitChars 10 cs 0 = n

/-- A number of 64 bits in digits, with or without a plus sign in front of them. -/
def Numeral (cs : List Char) (m : UInt64) : Prop :=
  ∃ digits, (cs = digits ∨ cs = '+' :: digits) ∧ Digits digits m.toNat

theorem read?_eq_some_iff : read? cs = some n ↔ Digits cs n := by
  rw [read?]
  constructor
  · intro h
    split at h
    · rename_i hcs
      exact ⟨hcs.1, List.all_eq_true.mp hcs.2, Option.some.inj h⟩
    · cases h
  · rintro ⟨hne, hdigits, rfl⟩
    exact if_pos ⟨hne, List.all_eq_true.mpr hdigits⟩

theorem Digits.head_ne_plus (h : Digits (c :: cs) n) : c ≠ '+' := by
  rintro rfl
  exact absurd (h.digits '+' List.mem_cons_self) (by decide)

/-- What is read where a plus sign in front is left out. -/
theorem readUInt64?_eq {digits : List Char}
    (h : cs = '+' :: digits ∨ cs = digits ∧ ∀ rest, cs ≠ '+' :: rest) : readUInt64? cs =
      (read? digits).bind fun n => if n < UInt64.size then some (UInt64.ofNat n) else none := by
  rcases h with rfl | ⟨rfl, hplus⟩
  · rfl
  · rw [readUInt64?]
    · rfl
    · exact hplus

theorem read_word_iff : (read? cs).bind
    (fun n => if n < UInt64.size then some (UInt64.ofNat n) else none) = some m ↔
      Digits cs m.toNat := by
  rw [Option.bind_eq_some_iff, ← read?_eq_some_iff]
  constructor
  · rintro ⟨n, hn, h⟩
    split at h
    · rename_i hlt
      rw [hn, ← Option.some.inj h, UInt64.toNat_ofNat_of_lt' hlt]
    · cases h
  · intro h
    refine ⟨m.toNat, h, ?_⟩
    rw [if_pos m.toNat_lt, UInt64.ofNat_toNat]

/-- A text is read as a number if it writes that number. -/
theorem readUInt64?_eq_some_iff : readUInt64? cs = some m ↔ Numeral cs m := by
  by_cases hplus : ∃ digits, cs = '+' :: digits
  · obtain ⟨digits, rfl⟩ := hplus
    rw [readUInt64?_eq (.inl rfl), read_word_iff]
    constructor
    · exact fun h => ⟨digits, .inr rfl, h⟩
    · rintro ⟨_, rfl | h, hdigits⟩
      · exact absurd rfl hdigits.head_ne_plus
      · cases h
        exact hdigits
  · rw [readUInt64?_eq (.inr ⟨rfl, not_exists.mp hplus⟩), read_word_iff]
    constructor
    · exact fun h => ⟨cs, .inl rfl, h⟩
    · rintro ⟨digits, rfl | h, hdigits⟩
      · exact hdigits
      · exact absurd ⟨digits, h⟩ hplus

theorem readUInt64?_eq_none_iff : readUInt64? cs = none ↔ ∀ m, ¬ Numeral cs m := by
  simp only [← readUInt64?_eq_some_iff, Option.eq_none_iff_forall_ne_some]

/-! ## Writing -/

theorem isDigit_of_mem_toDigits (h : c ∈ Nat.toDigits 10 n) : c.isDigit = true :=
  Nat.isDigit_of_mem_toDigits (by decide) (by decide) h

theorem digits_toDigits : Digits (Nat.toDigits 10 n) n :=
  ⟨Nat.toDigits_ne_nil, fun _ => isDigit_of_mem_toDigits, Nat.ofDigitChars_ten_toDigits⟩

theorem isDigit_of_mem_padded (h : c ∈ padded width n) : c.isDigit = true := by
  rcases List.mem_append.mp h with h | h
  · rw [List.eq_of_mem_replicate h]
    rfl
  · exact isDigit_of_mem_toDigits h

theorem length_toDigits_le_padded : (Nat.toDigits 10 n).length ≤ (padded width n).length := by
  rw [padded, List.length_append]
  exact Nat.le_add_left ..

theorem length_padded (h : (Nat.toDigits 10 n).length ≤ width) : (padded width n).length = width := by
  rw [padded, List.length_append, List.length_replicate, Nat.sub_add_cancel h]

theorem ofDigitChars_padded : Nat.ofDigitChars 10 (padded width n) 0 = n := by
  rw [padded, Nat.ofDigitChars_append, Nat.ofDigitChars_replicate_zero, Nat.mul_zero,
    Nat.ofDigitChars_ten_toDigits]

/-- Zeros in front do not change the number. -/
theorem digits_padded : Digits (padded width n) n :=
  ⟨List.append_ne_nil_of_right_ne_nil _ Nat.toDigits_ne_nil, fun _ => isDigit_of_mem_padded,
    ofDigitChars_padded⟩

theorem length_toDigits_le (m : UInt64) : (Nat.toDigits 10 m.toNat).length ≤ 20 :=
  (Nat.length_toDigits_le_iff (by decide) (by decide)).mpr
    (Nat.lt_trans m.toNat_lt (by decide))

/-! ## Writing what was read -/

theorem bounds_of_isDigit (h : c.isDigit = true) : 48 ≤ c.toNat ∧ c.toNat ≤ 57 := by
  simpa [Char.isDigit, UInt32.le_iff_toNat_le] using h

/-- A digit is written for its value. -/
theorem toDigits_of_isDigit (h : c.isDigit = true) :
    c.toNat - '0'.toNat < 10 ∧ Nat.toDigits 10 (c.toNat - '0'.toNat) = [c] := by
  obtain ⟨hlow, hhigh⟩ := bounds_of_isDigit h
  have hlt : c.toNat - 48 < 10 := by omega
  refine ⟨hlt, ?_⟩
  have hc : (c.toNat - 48).digitChar = c := by
    rw [← Char.toNat_inj, Nat.toNat_digitChar_of_lt_ten hlt]
    omega
  exact (Nat.toDigits_of_lt_base hlt).trans (congrArg (fun c => [c]) hc)

/-- Digits behind a number that is not zero are written as they stand. -/
theorem toDigits_ofDigitChars (hcs : ∀ c ∈ cs, c.isDigit = true) {a : Nat} (ha : 0 < a) :
    Nat.toDigits 10 (Nat.ofDigitChars 10 cs a) = Nat.toDigits 10 a ++ cs := by
  induction cs generalizing a with
  | nil => rw [Nat.ofDigitChars_nil, List.append_nil]
  | cons c cs ih =>
    rw [List.forall_mem_cons] at hcs
    obtain ⟨hlt, hc⟩ := toDigits_of_isDigit hcs.1
    rw [Nat.ofDigitChars_cons, ih hcs.2 (by omega),
      ← Nat.toDigits_append_toDigits (by decide) ha hlt, hc, List.append_assoc,
      List.singleton_append]

/-- A zero at the beginning is the only digit. -/
def Shortest (cs : List Char) : Prop := ∀ rest, cs = '0' :: rest → rest = []

theorem Digits.eq_toDigits (h : Digits cs n) (hshort : Shortest cs) : cs = Nat.toDigits 10 n := by
  obtain ⟨hne, hdigits, rfl⟩ := h
  cases cs with
  | nil => exact absurd rfl hne
  | cons c cs =>
    rw [List.forall_mem_cons] at hdigits
    obtain ⟨-, hc⟩ := toDigits_of_isDigit hdigits.1
    rw [Nat.ofDigitChars_cons, Nat.mul_zero, Nat.zero_add]
    rcases Nat.eq_zero_or_pos (c.toNat - '0'.toNat) with hzero | hpos
    · rw [hzero, Nat.toDigits_zero] at hc
      cases hc
      rw [hshort cs rfl]
      rfl
    · rw [toDigits_ofDigitChars hdigits.2 hpos, hc, List.singleton_append]

/-- A zero in front of other digits can be left out. -/
theorem Digits.tail (h : Digits ('0' :: cs) n) (hne : cs ≠ []) : Digits cs n where
  nonempty := hne
  digits := (List.forall_mem_cons.mp h.digits).2
  value := by
    have hvalue := h.value
    rwa [Nat.ofDigitChars_cons] at hvalue

/-- Digits are the number they write, padded to their own length. -/
theorem Digits.eq_padded (h : Digits cs n) : cs = padded cs.length n := by
  induction cs with
  | nil => exact absurd rfl h.nonempty
  | cons c cs ih =>
    by_cases hzero : c = '0' ∧ cs ≠ []
    · obtain ⟨rfl, hne⟩ := hzero
      have hcs : cs = padded cs.length n := ih (h.tail hne)
      have hle : (Nat.toDigits 10 n).length ≤ cs.length := by
        rw [hcs]
        exact length_toDigits_le_padded
      rw [padded, List.length_cons, Nat.succ_sub hle, List.replicate_succ, List.cons_append]
      exact congrArg _ hcs
    · have hshort : Shortest (c :: cs) := by
        intro rest hrest
        cases hrest
        exact Decidable.byContradiction fun hne => hzero ⟨rfl, hne⟩
      rw [padded, ← h.eq_toDigits hshort, Nat.sub_self, List.replicate_zero, List.nil_append]

/-- A number is written without zeros in front. -/
theorem shortest_toDigits : Shortest (Nat.toDigits 10 n) := by
  intro rest hrest
  refine Decidable.byContradiction fun hne => ?_
  have hdigits : Digits ('0' :: rest) n := hrest ▸ digits_toDigits
  have hlength : (Nat.toDigits 10 n).length ≤ rest.length := by
    rw [(hdigits.tail hne).eq_padded]
    exact length_toDigits_le_padded
  rw [hrest, List.length_cons] at hlength
  exact Nat.not_succ_le_self _ hlength

end Lineage.Decimal
