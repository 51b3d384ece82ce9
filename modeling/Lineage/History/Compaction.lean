import Lineage.Wire

/-!
# Recorded compactions

A compaction replaces some files of a store by others. Its record names the files on both sides,
with what was known of each when the compaction ran.
-/

namespace Lineage

/-- A file as a compaction saw it: its name, and what the store reported of it. -/
structure FileInfo where
  name : String
  /-- The smallest and the largest user key. -/
  first : Option Bytes := none
  last : Option Bytes := none
  family : Option String := none
  keys : Option UInt64 := none
  /-- Whether the values were taken out of the backup copy. -/
  stripped : Bool := false
  deriving DecidableEq, Repr

/-- The record of one compaction. -/
structure Compaction where
  /-- The store's sequence number when the compaction was over. -/
  sequence : UInt64
  /-- The time it was over, in milliseconds. -/
  time : UInt64
  inputs : List FileInfo
  outputs : List FileInfo
  reason : Option String := none
  deriving DecidableEq, Repr

/-! ## Layout -/

def FileInfo.format : Wire.Format FileInfo :=
  Wire.via
    (Wire.pair Wire.text <| Wire.pair (Wire.optional Wire.bytes) <|
      Wire.pair (Wire.optional Wire.bytes) <| Wire.pair (Wire.optional Wire.text) <|
      Wire.pair (Wire.optional Wire.uint64) Wire.boolean)
    (fun (name, first, last, family, keys, stripped) => ⟨name, first, last, family, keys, stripped⟩)
    (fun i => (i.name, i.first, i.last, i.family, i.keys, i.stripped))

def Compaction.format : Wire.Format Compaction :=
  Wire.via
    (Wire.pair Wire.uint64 <| Wire.pair Wire.uint64 <| Wire.pair (Wire.list FileInfo.format) <|
      Wire.pair (Wire.list FileInfo.format) (Wire.optional Wire.text))
    (fun (sequence, time, inputs, outputs, reason) => ⟨sequence, time, inputs, outputs, reason⟩)
    (fun c => (c.sequence, c.time, c.inputs, c.outputs, c.reason))

namespace Compaction

def encode (c : Compaction) : Bytes := format.write c

/-- The compaction written in front of a byte string; what follows it does not matter. -/
def decode (b : Bytes) : Except Wire.Error Compaction := format.decode b

def inputNames (c : Compaction) : List String := c.inputs.map FileInfo.name

def outputNames (c : Compaction) : List String := c.outputs.map FileInfo.name

end Compaction

end Lineage
