import Lineage.Checksum.Blake3
import Lineage.Checksum.Crc32c
import Lineage.SortedTable.Layout

/-!
# Writing sorted tables

Entries go into a block until it has the size that was asked for. Keys have to ascend strictly; one
that does not is refused, and the writer is as if it had not been offered. The lengths of keys,
values, blocks, the index and the properties have to fit in four bytes each; what is found to be too
long is refused when it is there, and what was done before is not taken back.
-/

namespace Lineage.SortedTable

/-- A table being written. -/
structure Writer where
  blockSize : Nat
  /-- What is in the file. -/
  written : Bytes := []
  index : List IndexEntry := []
  /-- The hashes of the blocks, one behind the other. -/
  hashes : Bytes := []
  dataBytes : UInt64 := 0
  /-- The bytes of the open block. -/
  buffer : Bytes := []
  /-- The number of entries in it. More than four bytes can tell do not fit into a block. -/
  count : Nat := 0
  smallest : Option Bytes := none
  lastKey : Option InternalKey := none
  maxSequence : UInt64 := 0
  entries : UInt64 := 0
  tombstones : UInt64 := 0

/-- The checked part of a block with its checksum and its hash. -/
def withTrailer (b : Bytes) : Bytes := b ++ (Bytes.ofUInt32 (Crc32c.checksum b) ++ Blake3.hash b)

namespace Writer

/-- What is done with a table being written. -/
abbrev Action := ExceptT Error (StateM Writer)

/-- A writer of blocks that are closed once they have the given size, or 64 bytes. -/
def new (blockSize : Nat) : Writer := { blockSize := max blockSize 64 }

/-- A length for a field of four bytes. -/
def fieldLength (length : Nat) (tooLarge : Corruption) : Action UInt32 :=
  if length < UInt32.size then return length.toUInt32 else throw (.corrupt tooLarge)

/-- The writer once its block has a trailer and is in the file. -/
def flushed (w : Writer) : Writer :=
  { w with
    written := w.written ++ withTrailer w.buffer
    hashes := w.hashes ++ Blake3.hash w.buffer
    buffer := withTrailer w.buffer }

/-- The writer once its index tells of that block too. -/
def closedUnder (w : Writer) (last : InternalKey) (length : UInt32) : Writer :=
  { w.flushed with
    index := w.index ++ [⟨last, ⟨w.written.length.toUInt64, length⟩⟩]
    dataBytes := w.dataBytes + w.buffer.length.toUInt64
    buffer := []
    count := 0 }

/-- Closes the open block. One that is too long is in the file then, but the index does not tell of
it, and it stays open with its trailer. -/
def close : Action Unit := do
  let w ← get
  set w.flushed
  let length ← fieldLength (withTrailer w.buffer).length .blockTooLarge
  match w.lastKey with
  | some last => set (w.closedUnder last length)
  | none => throw (.corrupt .missingLastKey)

/-- Whether a key may follow the entries so far. -/
def accepts (w : Writer) (k : InternalKey) : Bool :=
  match w.lastKey with
  | none => true
  | some last => compare k last = .gt

/-- The writer once a key is counted among its entries. An open block without entries is begun with
room for their number. -/
def noted (w : Writer) (k : InternalKey) : Writer :=
  { w with
    buffer := if w.count = 0 then w.buffer ++ Bytes.ofUInt32 0 else w.buffer
    smallest := w.smallest.or (some k.userKey)
    lastKey := some k
    maxSequence := max w.maxSequence k.sequence
    entries := w.entries + 1
    tombstones := w.tombstones + if k.kind = .deletion then 1 else 0 }

/-- The writer with a value behind the last key of its open block, and one more entry in it. -/
def completed (w : Writer) (value : Bytes) (length : UInt32) : Writer :=
  { w with
    buffer := Bytes.ofUInt32 (w.count + 1).toUInt32 ++
      (w.buffer ++ (Bytes.ofUInt32 length ++ value)).drop 4
    count := w.count + 1 }

/-- Puts an entry into the open block, and closes it if it has its size. -/
def put (k : InternalKey) (value : Bytes) : Action Unit := do
  modify (·.noted k)
  let buffer ← ofExcept ((k.appendTo (← get).buffer).mapError .longKey)
  modify ({ · with buffer })
  let length ← fieldLength value.length .valueTooLarge
  modify (·.completed value length)
  let w ← get
  if w.blockSize ≤ w.buffer.length then close

/-- Takes the next entry, if its key may follow. -/
def add (k : InternalKey) (value : Bytes) : Action Unit := do
  if (← get).accepts k then put k value else throw (.corrupt .unsortedKeys)

/-- What a table says about its entries, with an index that has the given bytes. -/
def propertiesWith (w : Writer) (index : Bytes) : Properties where
  smallest := w.smallest.getD []
  largest := (w.lastKey.map InternalKey.userKey).getD []
  maxSequence := w.maxSequence
  entries := w.entries
  tombstones := w.tombstones
  dataBytes := w.dataBytes
  indexBytes := index.length.toUInt64
  root := Blake3.hash (w.hashes ++ index)

/-- Puts the index, the properties and the footer behind the blocks. -/
def writeEnd : Action Properties := do
  let w ← get
  let index := indexFormat.write w.index
  set { w with written := w.written ++ index }
  let indexLength ← fieldLength index.length .indexTooLarge
  let properties := w.propertiesWith index
  let propertyBytes := Properties.format.write properties
  let propertiesLength ← fieldLength propertyBytes.length .propertiesTooLarge
  let footer : Footer := {
    indexOffset := w.written.length.toUInt64
    indexLength
    propertiesOffset := (w.written.length + index.length).toUInt64
    propertiesLength
    root := properties.root }
  set { w with
    written := w.written ++ (index ++ (propertyBytes ++ (Footer.format.write footer ++ magic))) }
  return properties

/-- Closes the open block if it has an entry. -/
def closeLast : Action Unit := do
  if 0 < (← get).count then close

/-- Finishes the table. -/
def finish : Action Properties := do
  closeLast
  writeEnd

/-- Offers entries one after the other, numbered from `n`, going on after a refusal. The second
part are the numbers and errors of the refused ones. -/
def offerFrom (n : Nat) (w : Writer) : List Entry → Writer × List (Nat × Error)
  | [] => (w, [])
  | (k, v) :: rest =>
    match (add k v).run.run w with
    | (.ok _, w') => w'.offerFrom (n + 1) rest
    | (.error e, w') =>
      let (w'', refused) := w'.offerFrom (n + 1) rest
      (w'', (n, e) :: refused)

def offer (w : Writer) (entries : List Entry) : Writer × List (Nat × Error) :=
  w.offerFrom 0 entries

end Writer

/-- Makes a path lead to a file with the given bytes, inside directories made as needed. -/
def store (p : Path) (b : Bytes) : Disk.Action Error Unit :=
  ExceptT.adapt .io do
    Disk.makeParents p
    Disk.writeFile p b

end Lineage.SortedTable
