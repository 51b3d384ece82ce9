import Lineage.History.Error
import Lineage.Proofs.Text.Decimal
import Lineage.Proofs.Text.Utf8

/-!
# Which byte strings are keys of the history

`KeyForm` says which byte strings are two texts with a hyphen between them, the first one as wide as
a sequence number. Such a byte string is read as a key if both texts write numbers, and no other is
(`parse?_eq_some_iff`). A key gives back the sequence number and the time it was made of
(`parse_encode`), so compactions that differ in either have different keys. What is read need not be
the key of what it is read as: it may have signs, or zeros in front of the time
(`KeyForm.eq_encode_iff`).
-/

namespace Lineage

variable {s t : UInt64} {key : Bytes} {left right : String}

namespace RowKey

/-- Two texts with a hyphen between them. The first one is as wide as a sequence number and has no
hyphen itself. -/
structure KeyForm (key : Bytes) (left right : String) : Prop where
  eq : key = Bytes.ofText (left ++ "-" ++ right)
  noHyphen : '-' ∉ left.toList
  width : (Bytes.ofText left).length = sequenceWidth

/-! ## Reading -/

theorem takeWhile_append {cs : List Char} (h : '-' ∉ cs) (rest : List Char) :
    (cs ++ rest).takeWhile (· != '-') = cs ++ rest.takeWhile (· != '-') := by
  apply List.takeWhile_append_of_pos
  intro c hc
  rw [bne_iff_ne]
  rintro rfl
  exact h hc

theorem takeWhile_hyphen {cs rest : List Char} (h : '-' ∉ cs) :
    (cs ++ '-' :: rest).takeWhile (· != '-') = cs := by
  simp [takeWhile_append h]

theorem parseText?_split (h : '-' ∉ left.toList) : parseText? (left ++ "-" ++ right) =
    if (Bytes.ofText left).length = sequenceWidth then do
      return (← Decimal.readUInt64? left.toList, ← Decimal.readUInt64? right.toList)
    else none := by
  have hlist : (left ++ "-" ++ right).toList = left.toList ++ '-' :: right.toList := by simp
  rw [parseText?, hlist, takeWhile_hyphen h, List.drop_left]
  rfl

/-- A text without a hyphen is no key. -/
theorem parseText?_of_noHyphen {text : String} (h : '-' ∉ text.toList) : parseText? text = none := by
  have hall : text.toList.takeWhile (· != '-') = text.toList := by
    simpa using takeWhile_append h []
  rw [parseText?, hall, List.drop_length]

theorem exists_split (text : String) : '-' ∉ text.toList ∨
    ∃ left right, text = left ++ "-" ++ right ∧ '-' ∉ left.toList := by
  by_cases h : '-' ∈ text.toList
  · obtain ⟨xs, ys, htext, hxs⟩ := List.eq_append_cons_of_mem h
    refine .inr ⟨.ofList xs, .ofList ys, ?_, by rwa [String.toList_ofList]⟩
    rw [← String.toList_inj, htext]
    simp
  · exact .inl h

theorem KeyForm.parse?_eq_some_iff (h : KeyForm key left right) : parse? key = some (s, t) ↔
    Decimal.Numeral left.toList s ∧ Decimal.Numeral right.toList t := by
  rw [h.eq, parse?, Utf8.decode_ofText]
  dsimp only
  rw [parseText?_split h.noHyphen, if_pos h.width, ← Decimal.readUInt64?_eq_some_iff,
    ← Decimal.readUInt64?_eq_some_iff]
  cases Decimal.readUInt64? left.toList <;> cases Decimal.readUInt64? right.toList <;> simp

/-- A byte string is read as a key if it has the form of one, with numbers on both sides. -/
theorem parse?_eq_some_iff : parse? key = some (s, t) ↔ ∃ left right, KeyForm key left right ∧
    Decimal.Numeral left.toList s ∧ Decimal.Numeral right.toList t := by
  constructor
  · intro h
    cases htext : Utf8.decode key with
    | error e =>
      rw [parse?, htext] at h
      cases h
    | ok text =>
      have hread : parseText? text = some (s, t) := by
        rw [parse?, htext] at h
        exact h
      rcases exists_split text with hnone | ⟨left, right, rfl, hleft⟩
      · rw [parseText?_of_noHyphen hnone] at hread
        cases hread
      · rw [parseText?_split hleft, Option.ite_none_right_eq_some] at hread
        have hform : KeyForm key left right :=
          ⟨(Utf8.ofText_of_decode htext).symm, hleft, hread.1⟩
        exact ⟨left, right, hform, hform.parse?_eq_some_iff.mp h⟩
  · rintro ⟨left, right, hform, h⟩
    exact hform.parse?_eq_some_iff.mpr h

/-! ## Writing -/

theorem length_encode_digits {digits : List Char} (h : ∀ c ∈ digits, c.isDigit = true) :
    (digits.flatMap String.utf8EncodeChar).length = digits.length := by
  induction digits with
  | nil => rfl
  | cons c digits ih =>
    rw [List.forall_mem_cons] at h
    have hc : (String.utf8EncodeChar c).length = 1 := by
      rw [String.length_utf8EncodeChar, Char.utf8Size_eq_one_iff]
      have hle : c.val ≤ '9'.val := (Bool.and_eq_true_iff.mp h.1).2 |> of_decide_eq_true
      exact UInt32.le_trans hle (by decide)
    rw [List.flatMap_cons, List.length_append, hc, ih h.2, List.length_cons, Nat.add_comm]

/-- The texts that a key is made of. -/
theorem keyForm_encode (s t : UInt64) : KeyForm (encode s t)
    (.ofList (Decimal.padded sequenceWidth s.toNat)) (.ofList (Nat.toDigits 10 t.toNat)) where
  eq := congrArg Bytes.ofText (String.toList_inj.mp (by simp [text]))
  noHyphen := by
    rw [String.toList_ofList]
    exact fun h => absurd (Decimal.isDigit_of_mem_padded h) (by decide)
  width := by
    rw [Bytes.ofText, String.toList_ofList,
      length_encode_digits fun _ => Decimal.isDigit_of_mem_padded]
    exact Decimal.length_padded (Decimal.length_toDigits_le s)

theorem parse_encode : parse? (encode s t) = some (s, t) := by
  refine (keyForm_encode s t).parse?_eq_some_iff.mpr ⟨?_, ?_⟩
  · rw [String.toList_ofList]
    exact ⟨_, .inl rfl, Decimal.digits_padded⟩
  · rw [String.toList_ofList]
    exact ⟨_, .inl rfl, Decimal.digits_toDigits⟩

theorem encode_inj {s s' t t' : UInt64} (h : encode s t = encode s' t') : s = s' ∧ t = t' := by
  have hparse := congrArg parse? h
  rw [parse_encode, parse_encode] at hparse
  exact Prod.mk.inj (Option.some.inj hparse)

/-- The first hyphen of a byte string tells its two texts. -/
theorem KeyForm.unique {left' right' : String} (h : KeyForm key left right)
    (h' : KeyForm key left' right') : left = left' ∧ right = right' := by
  have htext : left.toList ++ '-' :: right.toList = left'.toList ++ '-' :: right'.toList := by
    have heq := Utf8.ofText_inj (h.eq.symm.trans h'.eq)
    simpa [← String.toList_inj] using heq
  have hleft : left.toList = left'.toList := by
    rw [← takeWhile_hyphen h.noHyphen, htext, takeWhile_hyphen h'.noHyphen]
  rw [hleft, List.append_cancel_left_eq, List.cons.injEq] at htext
  exact ⟨String.toList_inj.mp hleft, String.toList_inj.mp htext.2⟩

/-- A text without a plus sign writes a number in digits. -/
theorem digits_of_noPlus {cs : List Char} (h : Decimal.Numeral cs s) (hplus : '+' ∉ cs) :
    Decimal.Digits cs s.toNat := by
  obtain ⟨digits, rfl | rfl, hdigits⟩ := h
  · exact hdigits
  · exact absurd List.mem_cons_self hplus

/-- What is read as a sequence number and a time is their key if it has no signs and no zero in
front of the time. -/
theorem KeyForm.eq_encode_iff (h : KeyForm key left right)
    (hleft : Decimal.Numeral left.toList s) (hright : Decimal.Numeral right.toList t) :
    key = encode s t ↔
      '+' ∉ left.toList ∧ '+' ∉ right.toList ∧ Decimal.Shortest right.toList := by
  constructor
  · rintro rfl
    obtain ⟨rfl, rfl⟩ := h.unique (keyForm_encode s t)
    simp only [String.toList_ofList]
    exact ⟨fun hplus => absurd (Decimal.isDigit_of_mem_padded hplus) (by decide),
      fun hplus => absurd (Decimal.isDigit_of_mem_toDigits hplus) (by decide),
      Decimal.shortest_toDigits⟩
  · rintro ⟨hplus, hplus', hshort⟩
    have hs : Decimal.Digits left.toList s.toNat := digits_of_noPlus hleft hplus
    have ht : Decimal.Digits right.toList t.toNat := digits_of_noPlus hright hplus'
    have hwidth : left.toList.length = sequenceWidth :=
      (length_encode_digits hs.digits).symm.trans h.width
    have hpadded : left.toList = Decimal.padded sequenceWidth s.toNat := by
      rw [← hwidth]
      exact hs.eq_padded
    rw [h.eq, (keyForm_encode s t).eq, ← hpadded, ← ht.eq_toDigits hshort, String.ofList_toList,
      String.ofList_toList]

end RowKey

/-! ## Keys, exactly -/

namespace History

open RowKey

theorem readKey_eq_ok : readKey key = .ok (s, t) ↔ parse? key = some (s, t) := by
  rw [readKey]
  cases parse? key <;> simp

theorem readKey_eq_error {e : Error} :
    readKey key = .error e ↔ e = .key key ∧ ¬ ∃ s t, parse? key = some (s, t) := by
  rw [readKey]
  cases parse? key with
  | none => simp [eq_comm]
  | some r => exact iff_of_false nofun fun h => h.2 ⟨r.1, r.2, rfl⟩

/-- A byte string is read as a key if it is text with a first hyphen behind twenty bytes and numbers
of 64 bits on both sides of it, and it is read as these numbers; on any other reading fails and
tells the byte string. So a key gives back what it was made of. And what is read as a sequence
number and a time is their key if it has no plus sign, and no zero in front of the time. -/
theorem readKey_iff :
    (∀ (key : Bytes) (s t : UInt64), readKey key = .ok (s, t) ↔
      ∃ left right, KeyForm key left right ∧ Decimal.Numeral left.toList s ∧
        Decimal.Numeral right.toList t) ∧
    (∀ (key : Bytes) (e : Error), readKey key = .error e ↔ e = .key key ∧
      ¬ ∃ s t left right, KeyForm key left right ∧ Decimal.Numeral left.toList s ∧
        Decimal.Numeral right.toList t) ∧
    (∀ s t : UInt64, readKey (encode s t) = .ok (s, t)) ∧
    ∀ (key : Bytes) (s t : UInt64) (left right : String), readKey key = .ok (s, t) →
      KeyForm key left right →
      (key = encode s t ↔
        '+' ∉ left.toList ∧ '+' ∉ right.toList ∧ Decimal.Shortest right.toList) := by
  refine ⟨fun key s t => readKey_eq_ok.trans parse?_eq_some_iff, fun key e => ?_,
    fun s t => readKey_eq_ok.mpr parse_encode, fun key s t left right hread hform => ?_⟩
  · simp only [readKey_eq_error, parse?_eq_some_iff]
  · obtain ⟨hleft, hright⟩ := hform.parse?_eq_some_iff.mp (readKey_eq_ok.mp hread)
    exact hform.eq_encode_iff hleft hright

end History

end Lineage

namespace Lineage.Sample

open RowKey

/-- A zero in front of the time, and a plus sign in place of a zero, are read and never written. -/
theorem readKey_padded :
    (History.readKey (Bytes.ofText "00000000000000000012-07") = .ok (12, 7) ∧
      KeyForm (Bytes.ofText "00000000000000000012-07") "00000000000000000012" "07") ∧
    Bytes.ofText "00000000000000000012-07" ≠ encode 12 7 ∧
    History.readKey (encode 12 7) = .ok (12, 7) ∧
    History.readKey (Bytes.ofText "+0000000000000000012-7") = .ok (12, 7) := by
  obtain ⟨hok, -, hback, hexact⟩ := History.readKey_iff
  have hform : KeyForm (Bytes.ofText "00000000000000000012-07") "00000000000000000012" "07" :=
    ⟨by decide +kernel, by decide, by decide +kernel⟩
  have hread : History.readKey (Bytes.ofText "00000000000000000012-07") = .ok (12, 7) := by
    refine (hok _ 12 7).mpr ⟨_, _, hform, ⟨_, .inl rfl, ?_⟩, ⟨_, .inl rfl, ?_⟩⟩
    · exact ⟨by decide, List.all_eq_true.mp (by decide), by decide⟩
    · exact ⟨by decide, List.all_eq_true.mp (by decide), by decide⟩
  refine ⟨⟨hread, hform⟩, ?_, hback 12 7, ?_⟩
  · rw [Ne, hexact _ 12 7 _ _ hread hform]
    rintro ⟨-, -, hshort⟩
    cases hshort ['7'] (by decide)
  · refine (hok _ 12 7).mpr ⟨"+0000000000000000012", "7", ?_, ⟨_, .inr rfl, ?_⟩, ⟨_, .inl rfl, ?_⟩⟩
    · exact ⟨by decide +kernel, by decide, by decide +kernel⟩
    · exact ⟨by decide, List.all_eq_true.mp (by decide), by decide⟩
    · exact ⟨by decide, List.all_eq_true.mp (by decide), by decide⟩

end Lineage.Sample
