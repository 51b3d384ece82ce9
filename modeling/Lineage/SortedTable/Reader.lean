import Lineage.Checksum.Blake3
import Lineage.Checksum.Crc32c
import Lineage.SortedTable.Layout

/-!
# Reading sorted tables

A reader trusts nothing: whatever the bytes of a file are, opening it and reading all its blocks
ends, and a block's entries are given only once its checksum and its hash are seen to agree with it.
-/

namespace Lineage.SortedTable

/-- An opened table. -/
structure Reader where
  bytes : Bytes
  index : List IndexEntry
  properties : Properties

/-- The bytes at an offset, if they lie before the limit. -/
def slice? (b : Bytes) (offset length limit : Nat) : Option Bytes :=
  if offset + length ≤ limit then some ((b.drop offset).take length) else none

namespace Reader

def corrupt {α : Type} (c : Corruption) : Except Error α := .error (.corrupt c)

/-- Opens a table: its footer, and what the footer points at. -/
def ofBytes (b : Bytes) : Except Error Reader := do
  if b.length < footerSize + magic.length then corrupt .fileTooSmall
  if b.drop (b.length - magic.length) ≠ magic then corrupt .badMagic
  let limit := b.length - (footerSize + magic.length)
  let .ok footer := Footer.format.decode (b.drop limit) | corrupt .badFooter
  let some index := slice? b footer.indexOffset.toNat footer.indexLength.toNat limit
    | corrupt .badFooter
  let some properties := slice? b footer.propertiesOffset.toNat footer.propertiesLength.toNat limit
    | corrupt .badFooter
  let .ok index := indexFormat.decode index | corrupt .badIndex
  let .ok properties := Properties.format.decode properties | corrupt .badProperties
  if properties.root ≠ footer.root then corrupt .rootMismatch
  return { bytes := b, index, properties }

/-! ## Blocks -/

/-- The number in front of a byte string. -/
def readNumber (b : Bytes) : Except Error Nat :=
  if b.length < 4 then corrupt .truncatedNumber else .ok (Bytes.toNat (b.take 4))

/-- The given number of entries in front of a byte string. -/
def readEntries : Nat → Bytes → Except Error (List Entry)
  | 0, _ => .ok []
  | n + 1, b => do
    let (key, used) ← (InternalKey.decode b).mapError .key
    let b := b.drop used
    let length ← readNumber b
    let b := b.drop 4
    if b.length < length then corrupt .truncatedValue
    return (key, b.take length) :: (← readEntries n (b.drop length))

/-- The entries of a block's checked part. -/
def readPayload (p : Bytes) : Except Error (List Entry) := do
  readEntries (← readNumber p) (p.drop 4)

/-- The entries of a block, once its checksum and its hash agree with it. -/
def readBlock (r : Reader) (h : Handle) : Except Error (List Entry) := do
  let some block := slice? r.bytes h.offset.toNat h.length.toNat r.bytes.length
    | corrupt .blockOutOfBounds
  if h.length.toNat ≤ trailerSize then corrupt .blockTooSmall
  let p := block.take (block.length - trailerSize)
  let trailer := block.drop (block.length - trailerSize)
  if Crc32c.checksum p ≠ Bytes.toUInt32 (trailer.take 4) then corrupt .checksumMismatch
  if Blake3.hash p ≠ trailer.drop 4 then corrupt .hashMismatch
  readPayload p

end Reader

/-! ## Entries -/

/-- A walk through a table's entries: the blocks to come, and the entries at hand. -/
structure Cursor where
  blocks : List IndexEntry
  ready : List Entry

namespace Cursor

/-- The first entry of the blocks given, and the walk after it. An error ends the walk. -/
def advance (r : Reader) : List IndexEntry → Option (Except Error Entry) × Cursor
  | [] => (none, ⟨[], []⟩)
  | b :: rest =>
    match r.readBlock b.handle with
    | .error e => (some (.error e), ⟨[], []⟩)
    | .ok [] => advance r rest
    | .ok (e :: es) => (some (.ok e), ⟨rest, es⟩)

/-- The next entry, and the walk after it. -/
def next (r : Reader) (c : Cursor) : Option (Except Error Entry) × Cursor :=
  match c.ready with
  | e :: es => (some (.ok e), { c with ready := es })
  | [] => advance r c.blocks

end Cursor

namespace Reader

def cursor (r : Reader) : Cursor := ⟨r.index, []⟩

/-- The entries of the blocks given up to the first that fails, and how it does. -/
def entriesOf (r : Reader) : List IndexEntry → List Entry × Option Error
  | [] => ([], none)
  | b :: rest =>
    match r.readBlock b.handle with
    | .error e => ([], some e)
    | .ok es =>
      let (more, failure) := r.entriesOf rest
      (es ++ more, failure)

/-- All entries up to the first block that fails, and how it does. -/
def entries (r : Reader) : List Entry × Option Error := r.entriesOf r.index

end Reader

/-- Opens the table that a path leads to. -/
def load (p : Path) : Disk.Action Error Reader := do
  let b ← ExceptT.adapt .io (Disk.mapFile p)
  ofExcept (Reader.ofBytes b)

end Lineage.SortedTable
