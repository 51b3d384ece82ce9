import Lineage.History.Compaction
import Lineage.Text.Decimal

/-!
# Keys of the history table

A compaction is stored under its sequence number, padded to the width of the largest one, and its
time, so that the rows stand in the order of the compactions.
-/

namespace Lineage

namespace RowKey

/-- The number of digits of the largest sequence number. -/
def sequenceWidth : Nat := 20

def text (sequence time : UInt64) : String :=
  String.ofList (Decimal.padded sequenceWidth sequence.toNat ++ '-' :: Nat.toDigits 10 time.toNat)

def encode (sequence time : UInt64) : Bytes :=
  Bytes.ofText (text sequence time)

/-- The sequence number and the time that a text writes: twenty bytes, a hyphen, and the rest. -/
def parseText? (s : String) : Option (UInt64 × UInt64) := do
  let sequence := s.toList.takeWhile (· != '-')
  match s.toList.drop sequence.length with
  | [] => none
  | _ :: time =>
    if (sequence.flatMap String.utf8EncodeChar).length = sequenceWidth then
      return (← Decimal.readUInt64? sequence, ← Decimal.readUInt64? time)
    else none

def parse? (key : Bytes) : Option (UInt64 × UInt64) :=
  match Utf8.decode key with
  | .ok s => parseText? s
  | .error _ => none

end RowKey

/-- The key a compaction is stored under. -/
def Compaction.key (c : Compaction) : Bytes := RowKey.encode c.sequence c.time

end Lineage
