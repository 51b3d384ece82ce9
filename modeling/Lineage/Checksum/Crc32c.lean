import Lineage.Bytes

/-!
# CRC-32C

The cyclic redundancy check with the Castagnoli polynomial, bits taken lowest first.
-/

namespace Lineage.Crc32c

/-- The Castagnoli polynomial, lowest coefficient in the highest bit. -/
def polynomial : UInt32 := 0x82F63B78

/-- Divides the remainder by one more power of the variable. -/
def shift (c : UInt32) : UInt32 :=
  if c &&& 1 = 1 then (c >>> 1) ^^^ polynomial else c >>> 1

/-- Takes one byte into the remainder. -/
def step (c : UInt32) (b : UInt8) : UInt32 :=
  Nat.repeat shift 8 (c ^^^ b.toUInt32)

/-- The CRC-32C of a byte string. -/
def checksum (b : Bytes) : UInt32 :=
  b.foldl step 0xFFFFFFFF ^^^ 0xFFFFFFFF

end Lineage.Crc32c
