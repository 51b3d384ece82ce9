/-!
# Byte strings

Byte strings, and numbers written in a fixed number of bytes, least significant byte first.
Reading a number back gives it modulo the capacity of its width (`toNat_ofNat`), and every byte
string is the writing of the number it holds (`ofNat_toNat`).
-/

namespace Lineage

/-- A byte string. -/
abbrev Bytes := List UInt8

namespace Bytes

/-- The lowest `width` base-256 digits of a number, least significant first. -/
def ofNat : (width : Nat) → Nat → Bytes
  | 0, _ => []
  | width + 1, n => UInt8.ofNat n :: ofNat width (n / 256)

/-- The number whose base-256 digits are given, least significant first. -/
def toNat : Bytes → Nat
  | [] => 0
  | b :: rest => b.toNat + 256 * toNat rest

@[simp] theorem length_ofNat (width n : Nat) : (ofNat width n).length = width := by
  induction width generalizing n with
  | zero => rfl
  | succ w ih => simp [ofNat, ih]

theorem toNat_ofNat (width n : Nat) : toNat (ofNat width n) = n % Nat.pow 256 width := by
  induction width generalizing n with
  | zero => exact (Nat.mod_one n).symm
  | succ w ih =>
    have hpow : Nat.pow 256 (w + 1) = 256 * Nat.pow 256 w := Nat.pow_succ'
    rw [ofNat, toNat, ih, hpow, Nat.mod_mul, UInt8.toNat_ofNat']

theorem ofNat_toNat (b : Bytes) : ofNat b.length (toNat b) = b := by
  induction b with
  | nil => rfl
  | cons x r ih =>
    have hx : x.toNat < 256 := UInt8.toNat_lt x
    have hdiv : (x.toNat + 256 * toNat r) / 256 = toNat r := by omega
    have hhead : UInt8.ofNat (x.toNat + 256 * toNat r) = x := by
      apply UInt8.toNat_inj.mp
      simp only [UInt8.toNat_ofNat']
      omega
    simp only [List.length_cons, toNat, ofNat, hdiv, hhead, ih]

theorem toNat_lt (b : Bytes) : toNat b < Nat.pow 256 b.length := by
  induction b with
  | nil => exact Nat.one_pos
  | cons x r ih =>
    have hx : x.toNat < 256 := UInt8.toNat_lt x
    have hpow : Nat.pow 256 (x :: r).length = 256 * Nat.pow 256 r.length := Nat.pow_succ'
    rw [toNat, hpow]
    omega

/-- The UTF-8 encoding of a text. -/
def ofText (s : String) : Bytes :=
  s.toList.flatMap String.utf8EncodeChar

/-- Four bytes, least significant first. -/
def ofUInt32 (n : UInt32) : Bytes := ofNat 4 n.toNat

/-- Eight bytes, least significant first. -/
def ofUInt64 (n : UInt64) : Bytes := ofNat 8 n.toNat

/-- The word a byte string holds, least significant byte first. -/
def toUInt32 (b : Bytes) : UInt32 := UInt32.ofNat (toNat b)

/-- The word a byte string holds, least significant byte first. -/
def toUInt64 (b : Bytes) : UInt64 := UInt64.ofNat (toNat b)

@[simp] theorem length_ofUInt32 (n : UInt32) : (ofUInt32 n).length = 4 := length_ofNat ..

@[simp] theorem length_ofUInt64 (n : UInt64) : (ofUInt64 n).length = 8 := length_ofNat ..

@[simp] theorem toUInt32_ofUInt32 (n : UInt32) : toUInt32 (ofUInt32 n) = n := by
  rw [toUInt32, ofUInt32, toNat_ofNat, Nat.mod_eq_of_lt n.toNat_lt, UInt32.ofNat_toNat]

@[simp] theorem toUInt64_ofUInt64 (n : UInt64) : toUInt64 (ofUInt64 n) = n := by
  rw [toUInt64, ofUInt64, toNat_ofNat, Nat.mod_eq_of_lt n.toNat_lt, UInt64.ofNat_toNat]

theorem toNat_ofUInt32 {n : Nat} (h : n < UInt32.size) : toNat (ofUInt32 n.toUInt32) = n := by
  have hword : n.toUInt32.toNat = n := UInt32.toNat_ofNat_of_lt' h
  have hlt : n < Nat.pow 256 4 := h
  rw [ofUInt32, hword, toNat_ofNat, Nat.mod_eq_of_lt hlt]

theorem ofUInt32_toUInt32 {b : Bytes} (h : b.length = 4) : ofUInt32 (toUInt32 b) = b := by
  have hlt : toNat b < Nat.pow 256 4 := h ▸ toNat_lt b
  rw [ofUInt32, toUInt32, UInt32.toNat_ofNat', Nat.mod_eq_of_lt hlt, ← h, ofNat_toNat]

theorem ofUInt64_toUInt64 {b : Bytes} (h : b.length = 8) : ofUInt64 (toUInt64 b) = b := by
  have hlt : toNat b < Nat.pow 256 8 := h ▸ toNat_lt b
  rw [ofUInt64, toUInt64, UInt64.toNat_ofNat', Nat.mod_eq_of_lt hlt, ← h, ofNat_toNat]

end Bytes

end Lineage
