import Std.Data.ExtTreeMap
import Lineage.Checksum.Crc32c
import Lineage.Wire

/-!
# Records and their frames

A table is kept as the list of its changes. Each change is a record in a frame: the record's length,
its CRC-32C, and the record. A frame that is cut off, or that is last and does not agree with its
checksum, was being written when writing stopped; anything else that does not agree is damage.
-/

namespace Lineage

/-- The rows of a table, in ascending key order. -/
abbrev Rows := Std.ExtTreeMap Bytes Bytes

namespace RecordFile

/-- A change of a table. -/
inductive Record where
  | put (key value : Bytes)
  | delete (key : Bytes)
  deriving DecidableEq, Repr

/-- The rows after a change. -/
def Record.applyTo (rows : Rows) : Record → Rows
  | .put k v => rows.insert k v
  | .delete k => rows.erase k

def Record.format : Wire.Format Record where
  write
    | .put k v => Wire.uint32.write 0 ++ Wire.bytes.write k ++ Wire.bytes.write v
    | .delete k => Wire.uint32.write 1 ++ Wire.bytes.write k
  read := do
    match ← Wire.uint32.read with
    | 0 =>
      let k ← Wire.bytes.read
      return .put k (← Wire.bytes.read)
    | 1 => return .delete (← Wire.bytes.read)
    | n => throw (.variant n 2)

/-- The length and the checksum in front of a record. -/
def headerSize : Nat := 8

/-- A record in its frame. -/
def Record.frame (r : Record) : Bytes :=
  let payload := Record.format.write r
  Bytes.ofUInt32 payload.length.toUInt32 ++ Bytes.ofUInt32 (Crc32c.checksum payload) ++ payload

/-! ## What stands in front -/

/-- What the bytes of a record file begin with. -/
inductive Head where
  /-- No whole record, and nothing behind it. -/
  | torn
  /-- A record that does not agree with its checksum, and more behind it. -/
  | damaged
  | record (payload rest : Bytes)

def head (b : Bytes) : Head :=
  let length := Bytes.toNat (b.take 4)
  if b.length < headerSize ∨ b.length < headerSize + length then .torn
  else
    let payload := (b.drop headerSize).take length
    let rest := b.drop (headerSize + length)
    if Crc32c.checksum payload = Bytes.toUInt32 ((b.drop 4).take 4) then .record payload rest
    else if rest = [] then .torn
    else .damaged

theorem length_lt_of_head {b payload rest : Bytes} (h : head b = .record payload rest) :
    rest.length < b.length := by
  unfold head at h
  simp only at h
  split at h
  · cases h
  · split at h
    · cases h
      simp [headerSize] at *
      omega
    · split at h <;> cases h

end RecordFile

end Lineage
