import Lineage.Checksum.Crc32c

/-!
# What the checksum detects

Taking one more byte into the remainder loses nothing: neither two remainders nor two bytes are
taken to the same remainder (`step_inj`, `step_byte_inj`). So byte strings that differ in one byte
differ in their checksums (`checksum_set_ne`).
-/

namespace Lineage.Crc32c

variable {a x : UInt8} {c d e : UInt32} {b l r : Bytes} {i n : Nat}

theorem xor_inj (h : c ^^^ e = d ^^^ e) : c = d := by
  have hagain := congrArg (· ^^^ e) h
  simpa [UInt32.xor_assoc] using hagain

theorem lowest_bit : c &&& 1 = 1 ↔ c.toBitVec.getLsbD 0 = true := by
  rw [← UInt32.toBitVec_inj, UInt32.toBitVec_and]
  change c.toBitVec &&& 1#32 = 1#32 ↔ _
  rw [BitVec.and_one_eq_setWidth_ofBool_getLsbD]
  cases c.toBitVec.getLsbD 0 <;> decide

/-- A bit after a division: the next higher one, changed by the polynomial's if the lowest bit was
set. -/
theorem getLsbD_shift : (shift c).toBitVec.getLsbD i =
    (c.toBitVec.getLsbD (i + 1) ^^
      (polynomial.toBitVec.getLsbD i && c.toBitVec.getLsbD 0)) := by
  have hshift : (c >>> 1).toBitVec.getLsbD i = c.toBitVec.getLsbD (i + 1) := by
    rw [UInt32.toBitVec_shiftRight]
    change (c.toBitVec >>> 1).getLsbD i = _
    rw [BitVec.getLsbD_ushiftRight, Nat.add_comm]
  rw [shift]
  split
  · rename_i hlow
    rw [lowest_bit] at hlow
    rw [UInt32.toBitVec_xor, BitVec.getLsbD_xor, hshift, hlow, Bool.and_true]
  · rename_i hlow
    rw [lowest_bit, Bool.not_eq_true] at hlow
    rw [hshift, hlow, Bool.and_false, Bool.xor_false]

/-- The polynomial has the highest coefficient, so the highest bit after a division tells the lowest
one before it. -/
theorem shift_inj (h : shift c = shift d) : c = d := by
  have hbits (i : Nat) := congrArg (fun u : UInt32 => u.toBitVec.getLsbD i) h
  simp only [getLsbD_shift] at hbits
  have hlowest : c.toBitVec.getLsbD 0 = d.toBitVec.getLsbD 0 := by
    have htop : polynomial.toBitVec.getLsbD 31 = true := by decide
    have hbit := hbits 31
    simpa only [htop, BitVec.getLsbD_of_ge _ 32 (Nat.le_refl 32), Bool.true_and,
      Bool.false_xor] using hbit
  apply UInt32.toBitVec_inj.mp
  apply BitVec.eq_of_getLsbD_eq
  intro i hi
  cases i with
  | zero => exact hlowest
  | succ i =>
    have hbit := hbits i
    rw [hlowest] at hbit
    exact Bool.xor_left_inj.mp hbit

theorem repeat_shift_inj (h : Nat.repeat shift n c = Nat.repeat shift n d) : c = d := by
  induction n with
  | zero => exact h
  | succ n ih => exact ih (shift_inj h)

theorem step_inj (h : step c a = step d a) : c = d :=
  xor_inj (repeat_shift_inj h)

theorem step_byte_inj (h : step c a = step c x) : a = x := by
  have hxor : c ^^^ a.toUInt32 = c ^^^ x.toUInt32 := repeat_shift_inj h
  rw [UInt32.xor_comm c, UInt32.xor_comm c] at hxor
  have hword := congrArg UInt32.toNat (xor_inj hxor)
  rw [UInt8.toNat_toUInt32, UInt8.toNat_toUInt32] at hword
  exact UInt8.toNat_inj.mp hword

theorem foldl_step_inj (h : b.foldl step c = b.foldl step d) : c = d := by
  induction b generalizing c d with
  | nil => exact h
  | cons a b ih => exact step_inj (ih h)

/-- A byte string and another one that differs from it in one byte have different checksums. -/
theorem checksum_set_ne (hi : i < b.length) (hx : b[i] ≠ x) :
    checksum (b.set i x) ≠ checksum b := by
  intro h
  have hsplit : b = b.take i ++ b[i] :: b.drop (i + 1) := by simp
  have hset : b.set i x = b.take i ++ x :: b.drop (i + 1) := by
    rw [List.set_eq_take_append_cons_drop, if_pos hi]
  rw [checksum, checksum, hset] at h
  conv at h => rhs; rw [hsplit]
  rw [List.foldl_append, List.foldl_append, List.foldl_cons, List.foldl_cons] at h
  exact hx (step_byte_inj (foldl_step_inj (xor_inj h))).symm

end Lineage.Crc32c
