import Lineage.Text.Utf8

/-!
# Reading back what was written in UTF-8

A character is read back from its encoding, whatever follows it (`decodeChar_encode`), and so is a
text (`decode_ofText`). Nothing else is read as either (`encode_of_decodeChar`, `ofText_of_decode`).
-/

namespace Lineage.Utf8

variable {n v code length : Nat} {low high : UInt8} {rest : Bytes} {c : Char}

/-! ## Following bytes -/

theorem toNat_byte (h : n < 256) : (UInt8.ofNat n).toNat = n :=
  UInt8.toNat_ofNat_of_lt' h

/-- A byte in range adds six bits to the code point. -/
theorem finish_cons (hn : v < 64) (hlow : low.toNat ≤ v + 128) (hhigh : v + 128 ≤ high.toNat) :
    finish length code (n + 1) low high (UInt8.ofNat (v + 128) :: rest) =
      finish (length + 1) (64 * code + v) n 0x80 0xBF rest := by
  have hv : (UInt8.ofNat (v + 128)).toNat = v + 128 := toNat_byte (by omega)
  have hbits : (v + 128) % 64 = v := by omega
  have hrange : low ≤ UInt8.ofNat (v + 128) ∧ UInt8.ofNat (v + 128) ≤ high := by
    rw [UInt8.le_iff_toNat_le, UInt8.le_iff_toNat_le, hv]
    exact ⟨hlow, hhigh⟩
  rw [finish, if_pos hrange, hv, hbits]

/-- A byte past the second one is in range whatever it adds. -/
theorem finish_cons_later (hn : v < 64) :
    finish length code (n + 1) 0x80 0xBF (UInt8.ofNat (v + 128) :: rest) =
      finish (length + 1) (64 * code + v) n 0x80 0xBF rest := by
  have hlow : (0x80 : UInt8).toNat = 128 := rfl
  have hhigh : (0xBF : UInt8).toNat = 191 := rfl
  exact finish_cons hn (by omega) (by omega)

/-! ## First bytes -/

theorem byte_eq_iff (m : Nat) (hn : n < 256) (hm : m < 256) :
    UInt8.ofNat n = UInt8.ofNat m ↔ n = m := by
  rw [← UInt8.toNat_inj, toNat_byte hn, toNat_byte hm]

theorem byte_lt (m : Nat) (hm : m < 256) (h : n < m) : UInt8.ofNat n < UInt8.ofNat m := by
  rw [UInt8.lt_iff_toNat_lt, toNat_byte (by omega), toNat_byte hm]
  exact h

theorem not_byte_lt (m : Nat) (hn : n < 256) (h : m ≤ n) : ¬ UInt8.ofNat n < UInt8.ofNat m := by
  rw [UInt8.lt_iff_toNat_lt, toNat_byte hn, toNat_byte (by omega)]
  exact Nat.not_lt.mpr h

theorem lead_two (h : 2 ≤ n) (hn : n < 32) :
    lead? (UInt8.ofNat (n + 192)) = some ⟨1, 0x80, 0xBF, n⟩ := by
  have hv : (UInt8.ofNat (n + 192)).toNat = n + 192 := toNat_byte (by omega)
  have h₁ : ¬ UInt8.ofNat (n + 192) < 0xC2 := not_byte_lt 194 (by omega) (by omega)
  have h₂ : UInt8.ofNat (n + 192) < 0xE0 := byte_lt 224 (by decide) (by omega)
  rw [lead?, if_neg h₁, if_pos h₂, hv, Nat.add_sub_cancel]

theorem lead_three (hn : n < 16) : lead? (UInt8.ofNat (n + 224)) =
    some ⟨2, if n = 0 then 0xA0 else 0x80, if n = 13 then 0x9F else 0xBF, n⟩ := by
  have hv : (UInt8.ofNat (n + 224)).toNat = n + 224 := toNat_byte (by omega)
  have h₁ : ¬ UInt8.ofNat (n + 224) < 0xC2 := not_byte_lt 194 (by omega) (by omega)
  have h₂ : ¬ UInt8.ofNat (n + 224) < 0xE0 := not_byte_lt 224 (by omega) (by omega)
  have h₃ : UInt8.ofNat (n + 224) < 0xF0 := byte_lt 240 (by decide) (by omega)
  have hfirst : UInt8.ofNat (n + 224) = 0xE0 ↔ n = 0 :=
    (byte_eq_iff 224 (by omega) (by decide)).trans (by omega)
  have hlast : UInt8.ofNat (n + 224) = 0xED ↔ n = 13 :=
    (byte_eq_iff 237 (by omega) (by decide)).trans (by omega)
  rw [lead?, if_neg h₁, if_neg h₂, if_pos h₃, hv, Nat.add_sub_cancel]
  simp only [hfirst, hlast]

theorem lead_four (hn : n < 5) : lead? (UInt8.ofNat (n + 240)) =
    some ⟨3, if n = 0 then 0x90 else 0x80, if n = 4 then 0x8F else 0xBF, n⟩ := by
  have hv : (UInt8.ofNat (n + 240)).toNat = n + 240 := toNat_byte (by omega)
  have h₁ : ¬ UInt8.ofNat (n + 240) < 0xC2 := not_byte_lt 194 (by omega) (by omega)
  have h₂ : ¬ UInt8.ofNat (n + 240) < 0xE0 := not_byte_lt 224 (by omega) (by omega)
  have h₃ : ¬ UInt8.ofNat (n + 240) < 0xF0 := not_byte_lt 240 (by omega) (by omega)
  have h₄ : UInt8.ofNat (n + 240) < 0xF5 := byte_lt 245 (by decide) (by omega)
  have hfirst : UInt8.ofNat (n + 240) = 0xF0 ↔ n = 0 :=
    (byte_eq_iff 240 (by omega) (by decide)).trans (by omega)
  have hlast : UInt8.ofNat (n + 240) = 0xF4 ↔ n = 4 :=
    (byte_eq_iff 244 (by omega) (by decide)).trans (by omega)
  rw [lead?, if_neg h₁, if_neg h₂, if_neg h₃, if_pos h₄, hv, Nat.add_sub_cancel]
  simp only [hfirst, hlast]

/-- No byte that announces others stands for itself. -/
theorem decodeChar_lead {x : UInt8} {l : Lead} (hx : lead? x = some l) :
    decodeChar x rest =
      (finish 1 l.digits l.following l.low l.high rest).map
        fun c => (Char.ofNat c, l.following) := by
  have hlow : ¬ x < 0x80 := by
    intro h
    have h' : x < 0xC2 := by
      rw [UInt8.lt_iff_toNat_lt] at h ⊢
      exact Nat.lt_trans h (by decide)
    rw [lead?, if_pos h'] at hx
    cases hx
  rw [decodeChar, if_neg hlow, hx]

/-! ## Characters and texts -/

section
variable {p : Prop} [Decidable p]

theorem narrowed_low (hlow : p → low.toNat ≤ n) (hn : 128 ≤ n) :
    (if p then low else 0x80).toNat ≤ n := by
  split
  · exact hlow ‹_›
  · exact hn

theorem narrowed_high (hhigh : p → n ≤ high.toNat) (hn : n ≤ 191) :
    n ≤ (if p then high else 0xBF).toNat := by
  split
  · exact hhigh ‹_›
  · exact hn

end

theorem decodeChar_one (h : v < 128) : decodeChar (UInt8.ofNat v) rest = .ok (Char.ofNat v, 0) := by
  have hx : UInt8.ofNat v < 0x80 := byte_lt 128 (by decide) h
  rw [decodeChar, if_pos hx, toNat_byte (by omega)]

theorem decodeChar_two (h : 128 ≤ v) (h' : v < 2048) :
    decodeChar (UInt8.ofNat (v / 64 + 192)) (UInt8.ofNat (v % 64 + 128) :: rest) =
      .ok (Char.ofNat v, 1) := by
  have hsum : 64 * (v / 64) + v % 64 = v := by omega
  rw [decodeChar_lead (lead_two (by omega) (by omega)), finish_cons_later (by omega), finish, hsum]
  rfl

/-- The narrower range of the second byte holds it, as the code point has no shorter form and is no
surrogate. -/
theorem decodeChar_three (h : 2048 ≤ v) (h' : v < 65536) (hgap : v < 0xD800 ∨ 0xDFFF < v) :
    decodeChar (UInt8.ofNat (v / 4096 + 224))
      (UInt8.ofNat (v / 64 % 64 + 128) :: UInt8.ofNat (v % 64 + 128) :: rest) =
        .ok (Char.ofNat v, 2) := by
  have hA0 : (0xA0 : UInt8).toNat = 160 := rfl
  have h9F : (0x9F : UInt8).toNat = 159 := rfl
  have hsum : 64 * (64 * (v / 4096) + v / 64 % 64) + v % 64 = v := by omega
  rw [decodeChar_lead (lead_three (by omega)),
    finish_cons (by omega) (narrowed_low (by omega) (by omega))
      (narrowed_high (by omega) (by omega)),
    finish_cons_later (by omega), finish, hsum]
  rfl

theorem decodeChar_four (h : 65536 ≤ v) (h' : v < 0x110000) :
    decodeChar (UInt8.ofNat (v / 262144 + 240))
      (UInt8.ofNat (v / 4096 % 64 + 128) :: UInt8.ofNat (v / 64 % 64 + 128) ::
        UInt8.ofNat (v % 64 + 128) :: rest) = .ok (Char.ofNat v, 3) := by
  have h90 : (0x90 : UInt8).toNat = 144 := rfl
  have h8F : (0x8F : UInt8).toNat = 143 := rfl
  have hsum :
      64 * (64 * (64 * (v / 262144) + v / 4096 % 64) + v / 64 % 64) + v % 64 = v := by omega
  rw [decodeChar_lead (lead_four (by omega)),
    finish_cons (by omega) (narrowed_low (by omega) (by omega))
      (narrowed_high (by omega) (by omega)),
    finish_cons_later (by omega), finish_cons_later (by omega), finish, hsum]
  rfl

/-- A character is read back from its encoding. -/
theorem decodeChar_encode (c : Char) (rest : Bytes) : ∃ x tail,
    String.utf8EncodeChar c = x :: tail ∧ decodeChar x (tail ++ rest) = .ok (c, tail.length) := by
  have hvalid : c.toNat < 0xD800 ∨ 0xDFFF < c.toNat ∧ c.toNat < 0x110000 := c.valid
  have hc : Char.ofNat c.toNat = c := Char.ofNat_toNat c
  have hval : c.val.toNat = c.toNat := rfl
  rw [String.utf8EncodeChar, hval]
  generalize c.toNat = v at hvalid hc
  subst hc
  by_cases h₁ : v ≤ 0x7f
  · exact ⟨_, _, if_pos h₁, decodeChar_one (by omega)⟩
  rw [if_neg h₁]
  by_cases h₂ : v ≤ 0x7ff
  · have hhigh : v / 64 % 32 = v / 64 := by omega
    refine ⟨_, _, if_pos h₂, ?_⟩
    rw [hhigh]
    exact decodeChar_two (by omega) (by omega)
  rw [if_neg h₂]
  by_cases h₃ : v ≤ 0xffff
  · have hhigh : v / 4096 % 16 = v / 4096 := by omega
    refine ⟨_, _, if_pos h₃, ?_⟩
    rw [hhigh]
    exact decodeChar_three (by omega) (by omega) (by omega)
  · have hhigh : v / 262144 % 8 = v / 262144 := by omega
    refine ⟨_, _, if_neg h₃, ?_⟩
    rw [hhigh]
    exact decodeChar_four (by omega) (by omega)

theorem decodeFrom_flatMap (index : Nat) (cs : List Char) :
    decodeFrom index (cs.flatMap String.utf8EncodeChar) = .ok cs := by
  induction cs generalizing index with
  | nil => rw [List.flatMap_nil, decodeFrom]
  | cons c rest ih =>
    obtain ⟨x, tail, henc, hdec⟩ := decodeChar_encode c (rest.flatMap String.utf8EncodeChar)
    rw [List.flatMap_cons, henc, List.cons_append, decodeFrom, hdec]
    dsimp only
    rw [List.drop_left, ih]
    rfl

/-- A text is read back from its encoding. -/
theorem decode_ofText (s : String) : decode (Bytes.ofText s) = .ok s := by
  rw [decode, Bytes.ofText, decodeFrom_flatMap, Except.map, String.ofList_toList]

theorem ofText_inj {s s' : String} (h : Bytes.ofText s = Bytes.ofText s') : s = s' := by
  have hdecode := congrArg decode h
  rw [decode_ofText, decode_ofText] at hdecode
  exact Except.ok.inj hdecode

/-! ## Exact reading -/

section
variable {x : UInt8} {b : Bytes} {l : Lead} {s : String} {cs : List Char} {index k : Nat}

/-- Each byte that follows is there, in range, and adds six bits. -/
theorem exists_of_finish (h : finish length code (n + 1) low high rest = .ok k) :
    ∃ y rest', rest = y :: rest' ∧ low.toNat ≤ y.toNat ∧ y.toNat ≤ high.toNat ∧
      finish (length + 1) (64 * code + y.toNat % 64) n 0x80 0xBF rest' = .ok k := by
  cases rest with
  | nil => cases h
  | cons y rest =>
    rw [finish] at h
    split at h
    · rename_i hy
      exact ⟨y, rest, rfl, UInt8.le_iff_toNat_le.mp hy.1, UInt8.le_iff_toNat_le.mp hy.2, h⟩
    · cases h

/-- The range of a first byte tells how many bytes follow, and in which range the first of these
is. -/
theorem lead_cases (h : lead? x = some l) :
    (194 ≤ x.toNat ∧ x.toNat < 224 ∧ l = ⟨1, 0x80, 0xBF, x.toNat - 192⟩) ∨
    (∃ low high, 224 ≤ x.toNat ∧ x.toNat < 240 ∧ l = ⟨2, low, high, x.toNat - 224⟩ ∧
      low.toNat = (if x.toNat = 224 then 160 else 128) ∧
      high.toNat = if x.toNat = 237 then 159 else 191) ∨
    (∃ low high, 240 ≤ x.toNat ∧ x.toNat < 245 ∧ l = ⟨3, low, high, x.toNat - 240⟩ ∧
      low.toNat = (if x.toNat = 240 then 144 else 128) ∧
      high.toNat = if x.toNat = 244 then 143 else 191) := by
  have hC2 : (0xC2 : UInt8).toNat = 194 := rfl
  have hE0 : (0xE0 : UInt8).toNat = 224 := rfl
  have hED : (0xED : UInt8).toNat = 237 := rfl
  have hF0 : (0xF0 : UInt8).toNat = 240 := rfl
  have hF4 : (0xF4 : UInt8).toNat = 244 := rfl
  have hF5 : (0xF5 : UInt8).toNat = 245 := rfl
  rw [lead?] at h
  simp only [UInt8.lt_iff_toNat_lt, ← UInt8.toNat_inj, hC2, hE0, hED, hF0, hF4, hF5] at h
  split at h
  · cases h
  split at h
  · cases h
    exact .inl ⟨by omega, by omega, rfl⟩
  split at h
  · cases h
    exact .inr (.inl ⟨_, _, by omega, by omega, rfl, by split <;> rfl, by split <;> rfl⟩)
  split at h
  · cases h
    exact .inr (.inr ⟨_, _, by omega, by omega, rfl, by split <;> rfl, by split <;> rfl⟩)
  · cases h

theorem byte_eq_of_toNat (h : n = x.toNat) : UInt8.ofNat n = x := by
  rw [h, UInt8.ofNat_toNat]

theorem toNat_ofNat (h : v.isValidChar) : (Char.ofNat v).val.toNat = v := by
  have hc : Char.ofNat v = Char.ofNatAux v h := dif_pos h
  rw [hc]
  rfl

section
variable {y z w : UInt8}

theorem encode_two (hx : 194 ≤ x.toNat) (hx' : x.toNat < 224) (hy : 128 ≤ y.toNat)
    (hy' : y.toNat ≤ 191) :
    String.utf8EncodeChar (Char.ofNat (64 * (x.toNat - 192) + y.toNat % 64)) = [x, y] := by
  rw [String.utf8EncodeChar, toNat_ofNat (.inl (by omega)), if_neg (by omega), if_pos (by omega),
    byte_eq_of_toNat (x := x) (by omega), byte_eq_of_toNat (x := y) (by omega)]

theorem encode_three (hx : 224 ≤ x.toNat) (hx' : x.toNat < 240)
    (hy : (if x.toNat = 224 then 160 else 128) ≤ y.toNat)
    (hy' : y.toNat ≤ if x.toNat = 237 then 159 else 191) (hz : 128 ≤ z.toNat)
    (hz' : z.toNat ≤ 191) :
    String.utf8EncodeChar (Char.ofNat
      (64 * (64 * (x.toNat - 224) + y.toNat % 64) + z.toNat % 64)) = [x, y, z] := by
  -- The narrower ranges leave out shorter forms and surrogates.
  have hmin : 2048 ≤ 64 * (64 * (x.toNat - 224) + y.toNat % 64) + z.toNat % 64 := by
    split at hy <;> split at hy' <;> omega
  have hgap : (64 * (64 * (x.toNat - 224) + y.toNat % 64) + z.toNat % 64).isValidChar := by
    rw [Nat.isValidChar]
    split at hy <;> split at hy' <;> omega
  have hy : 128 ≤ y.toNat ∧ y.toNat ≤ 191 := by
    split at hy <;> split at hy' <;> omega
  rw [String.utf8EncodeChar, toNat_ofNat hgap, if_neg (by omega), if_neg (by omega),
    if_pos (by omega), byte_eq_of_toNat (x := x) (by omega), byte_eq_of_toNat (x := y) (by omega),
    byte_eq_of_toNat (x := z) (by omega)]

theorem encode_four (hx : 240 ≤ x.toNat) (hx' : x.toNat < 245)
    (hy : (if x.toNat = 240 then 144 else 128) ≤ y.toNat)
    (hy' : y.toNat ≤ if x.toNat = 244 then 143 else 191) (hz : 128 ≤ z.toNat)
    (hz' : z.toNat ≤ 191) (hw : 128 ≤ w.toNat) (hw' : w.toNat ≤ 191) :
    String.utf8EncodeChar (Char.ofNat
      (64 * (64 * (64 * (x.toNat - 240) + y.toNat % 64) + z.toNat % 64) + w.toNat % 64)) =
      [x, y, z, w] := by
  have hmin : 65536 ≤
      64 * (64 * (64 * (x.toNat - 240) + y.toNat % 64) + z.toNat % 64) + w.toNat % 64 := by
    split at hy <;> split at hy' <;> omega
  have hmax : (64 * (64 * (64 * (x.toNat - 240) + y.toNat % 64) + z.toNat % 64) +
      w.toNat % 64).isValidChar := by
    rw [Nat.isValidChar]
    split at hy <;> split at hy' <;> omega
  have hy : 128 ≤ y.toNat ∧ y.toNat ≤ 191 := by
    split at hy <;> split at hy' <;> omega
  rw [String.utf8EncodeChar, toNat_ofNat hmax, if_neg (by omega), if_neg (by omega),
    if_neg (by omega), byte_eq_of_toNat (x := x) (by omega), byte_eq_of_toNat (x := y) (by omega),
    byte_eq_of_toNat (x := z) (by omega), byte_eq_of_toNat (x := w) (by omega)]

end

/-- A character is encoded as it is read. -/
theorem encode_of_decodeChar (h : decodeChar x rest = .ok (c, n)) :
    n ≤ rest.length ∧ String.utf8EncodeChar c = x :: rest.take n := by
  rw [decodeChar] at h
  split at h
  · rename_i hx
    cases h
    rw [UInt8.lt_iff_toNat_lt, show (0x80 : UInt8).toNat = 128 from rfl] at hx
    refine ⟨Nat.zero_le _, ?_⟩
    rw [String.utf8EncodeChar, toNat_ofNat (.inl (by omega)), if_pos (by omega),
      UInt8.ofNat_toNat, List.take_zero]
  split at h
  · cases h
  · rename_i l hl
    cases hk : finish 1 l.digits l.following l.low l.high rest with
    | error f =>
      rw [hk] at h
      cases h
    | ok k =>
      rw [hk] at h
      cases h
      rcases lead_cases hl with ⟨hx, hx', rfl⟩ | ⟨low, high, hx, hx', rfl, hlow, hhigh⟩ |
        ⟨low, high, hx, hx', rfl, hlow, hhigh⟩
      · obtain ⟨y, rest, rfl, hy, hy', hk⟩ := exists_of_finish hk
        cases hk
        exact ⟨by simp, encode_two hx hx' hy hy'⟩
      · obtain ⟨y, rest, rfl, hy, hy', hk⟩ := exists_of_finish hk
        obtain ⟨z, rest, rfl, hz, hz', hk⟩ := exists_of_finish hk
        cases hk
        exact ⟨by simp, encode_three hx hx' (hlow ▸ hy) (hhigh ▸ hy') hz hz'⟩
      · obtain ⟨y, rest, rfl, hy, hy', hk⟩ := exists_of_finish hk
        obtain ⟨z, rest, rfl, hz, hz', hk⟩ := exists_of_finish hk
        obtain ⟨w, rest, rfl, hw, hw', hk⟩ := exists_of_finish hk
        cases hk
        exact ⟨by simp, encode_four hx hx' (hlow ▸ hy) (hhigh ▸ hy') hz hz' hw hw'⟩

theorem flatMap_of_decodeFrom (h : decodeFrom index b = .ok cs) :
    cs.flatMap String.utf8EncodeChar = b := by
  fun_induction decodeFrom index b generalizing cs with
  | case1 =>
    cases h
    rfl
  | case2 => cases h
  | case3 index x rest c n hchar ih =>
    cases hmore : decodeFrom (index + 1 + n) (rest.drop n) with
    | error e =>
      rw [hmore] at h
      cases h
    | ok more =>
      rw [hmore] at h
      cases h
      rw [List.flatMap_cons, ih hmore, (encode_of_decodeChar hchar).2, List.cons_append,
        List.take_append_drop]

/-- A text is encoded as it is read. -/
theorem ofText_of_decode (h : decode b = .ok s) : Bytes.ofText s = b := by
  rw [decode] at h
  cases hcs : decodeFrom 0 b with
  | error e =>
    rw [hcs] at h
    cases h
  | ok cs =>
    rw [hcs] at h
    cases h
    rw [Bytes.ofText, String.toList_ofList, flatMap_of_decodeFrom hcs]
end

end Lineage.Utf8
