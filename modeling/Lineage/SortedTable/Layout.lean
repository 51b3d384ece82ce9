import Lineage.Disk.Basic
import Lineage.SortedTable.InternalKey
import Lineage.Wire

/-!
# The layout of sorted tables

A table holds blocks of entries, an index with the last key and the place of each block, the table's
properties, and a footer with the places of both. A block is its number of entries and the entries,
followed by a CRC-32C and a hash of these. The table's root is the hash of the blocks' hashes and
the index.
-/

namespace Lineage.SortedTable

/-- A version of a key and the value it puts. -/
abbrev Entry := InternalKey × Bytes

/-! ## Errors -/

/-- What is wrong with a table. -/
inductive Corruption where
  | fileTooSmall
  | badMagic
  | badFooter
  | badIndex
  | badProperties
  | rootMismatch
  | blockOutOfBounds
  | blockTooSmall
  | checksumMismatch
  | hashMismatch
  | truncatedNumber
  | truncatedValue
  | unsortedKeys
  | valueTooLarge
  | missingLastKey
  | countMismatch
  | blockTooLarge
  | indexTooLarge
  | propertiesTooLarge
  deriving DecidableEq, Repr

def Corruption.words : Corruption → String
  | .fileTooSmall => "file too small"
  | .badMagic => "bad magic"
  | .badFooter => "bad footer offsets"
  | .badIndex => "index decode"
  | .badProperties => "props decode"
  | .rootMismatch => "table root mismatch"
  | .blockOutOfBounds => "block handle out of bounds"
  | .blockTooSmall => "block too small"
  | .checksumMismatch => "block crc mismatch"
  | .hashMismatch => "block hash mismatch"
  | .truncatedNumber => "truncated u32"
  | .truncatedValue => "truncated value bytes"
  | .unsortedKeys => "internal keys must be added in strictly sorted order"
  | .valueTooLarge => "value too large"
  | .missingLastKey => "missing last key"
  | .countMismatch => "stripped table entry count mismatch"
  | .blockTooLarge => "block too large"
  | .indexTooLarge => "index too large"
  | .propertiesTooLarge => "props too large"

inductive Error where
  | io (e : IoError)
  | key (e : InternalKey.DecodeError)
  | longKey (e : InternalKey.TooLarge)
  | corrupt (c : Corruption)
  deriving DecidableEq, Repr

def Error.message? : Error → Option String
  | .io e => e.message? "io error: "
  | .key e => some ("decode error: " ++ e.message)
  | .longKey e => some ("decode error: " ++ e.message)
  | .corrupt c => some ("sst corrupt: " ++ c.words)

/-! ## Records -/

/-- What a table says about its entries. -/
structure Properties where
  smallest : Bytes
  largest : Bytes
  maxSequence : UInt64
  entries : UInt64
  tombstones : UInt64
  dataBytes : UInt64
  indexBytes : UInt64
  root : Bytes
  deriving DecidableEq, Repr

/-- Where a block lies in the file. -/
structure Handle where
  offset : UInt64
  length : UInt32
  deriving DecidableEq, Repr

structure IndexEntry where
  lastKey : InternalKey
  handle : Handle
  deriving DecidableEq, Repr

structure Footer where
  indexOffset : UInt64
  indexLength : UInt32
  propertiesOffset : UInt64
  propertiesLength : UInt32
  root : Bytes
  deriving DecidableEq, Repr

/-- The length of a root. -/
def rootSize : Nat := 32

def Properties.format : Wire.Format Properties :=
  Wire.via
    (Wire.pair Wire.bytes <| Wire.pair Wire.bytes <| Wire.pair Wire.uint64 <|
      Wire.pair Wire.uint64 <| Wire.pair Wire.uint64 <| Wire.pair Wire.uint64 <|
      Wire.pair Wire.uint64 (Wire.raw rootSize))
    (fun (smallest, largest, maxSequence, entries, tombstones, dataBytes, indexBytes, root) =>
      ⟨smallest, largest, maxSequence, entries, tombstones, dataBytes, indexBytes, root⟩)
    (fun p => (p.smallest, p.largest, p.maxSequence, p.entries, p.tombstones, p.dataBytes,
      p.indexBytes, p.root))

/-- The kind of a key, in four bytes. -/
def kindFormat : Wire.Format KeyKind where
  write k := Wire.uint32.write k.code.toUInt32
  read := do
    match ← Wire.uint32.read with
    | 0 => return .deletion
    | 1 => return .put
    | n => throw (.variant n 2)

def IndexEntry.format : Wire.Format IndexEntry :=
  Wire.via
    (Wire.pair Wire.bytes <| Wire.pair Wire.uint64 <| Wire.pair kindFormat <|
      Wire.pair Wire.uint64 Wire.uint32)
    (fun (userKey, sequence, kind, offset, length) =>
      ⟨⟨userKey, sequence, kind⟩, ⟨offset, length⟩⟩)
    (fun e => (e.lastKey.userKey, e.lastKey.sequence, e.lastKey.kind, e.handle.offset,
      e.handle.length))

def Footer.format : Wire.Format Footer :=
  Wire.via
    (Wire.pair Wire.uint64 <| Wire.pair Wire.uint32 <| Wire.pair Wire.uint64 <|
      Wire.pair Wire.uint32 (Wire.raw rootSize))
    (fun (indexOffset, indexLength, propertiesOffset, propertiesLength, root) =>
      ⟨indexOffset, indexLength, propertiesOffset, propertiesLength, root⟩)
    (fun f => (f.indexOffset, f.indexLength, f.propertiesOffset, f.propertiesLength, f.root))

def indexFormat : Wire.Format (List IndexEntry) := Wire.list IndexEntry.format

/-- The bytes that end a table. -/
def magic : Bytes := Bytes.ofText "LYRDIFF1"

def footerSize : Nat := 8 + 4 + 8 + 4 + rootSize

/-- The length of the checksum and the hash behind a block's entries. -/
def trailerSize : Nat := 4 + 32

/-- An entry inside a block: the key, and the value behind its length in four bytes. -/
def entryBytes (e : Entry) : Bytes :=
  e.1.encode ++ Bytes.ofUInt32 e.2.length.toUInt32 ++ e.2

/-- The checked part of a block. -/
def payload (entries : List Entry) : Bytes :=
  Bytes.ofUInt32 entries.length.toUInt32 ++ entries.flatMap entryBytes

end Lineage.SortedTable
