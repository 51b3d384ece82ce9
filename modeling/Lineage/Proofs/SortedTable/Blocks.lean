import Lineage.Proofs.SortedTable.Keys
import Lineage.SortedTable.Reader

/-!
# Reading blocks back

A block whose entries have keys and values that are not too long for their length fields is read
back (`Reader.readBlock_block`), and so are blocks that stand one behind the other, by their index
(`Reader.entriesOf_indexFrom`).
-/

namespace Lineage.SortedTable

variable {b front mid back rest : Bytes} {es : List Entry} {blocks blocks' : List (List Entry)}
  {n limit : Nat} {h : Handle} {r : Reader}

/-! ## Entries -/

/-- The lengths of the key and the value can be written in four bytes. -/
structure Entry.Fits (e : Entry) : Prop where
  key : e.1.userKey.length < UInt32.size
  value : e.2.length < UInt32.size

instance (e : Entry) : Decidable (Entry.Fits e) :=
  decidable_of_iff (e.1.userKey.length < UInt32.size ∧ e.2.length < UInt32.size)
    ⟨fun h => ⟨h.1, h.2⟩, fun h => ⟨h.key, h.value⟩⟩

namespace Reader

theorem readNumber_append (h : n < UInt32.size) :
    readNumber (Bytes.ofUInt32 n.toUInt32 ++ rest) = .ok n := by
  have hlength : (Bytes.ofUInt32 n.toUInt32).length = 4 := Bytes.length_ofUInt32 _
  have hlong : ¬ (Bytes.ofUInt32 n.toUInt32 ++ rest).length < 4 := by
    rw [List.length_append, hlength]
    exact Nat.not_lt.mpr (Nat.le_add_right ..)
  rw [readNumber, if_neg hlong, List.take_left' hlength, Bytes.toNat_ofUInt32 h]

theorem readEntries_flatMap (hfits : ∀ e ∈ es, Entry.Fits e) :
    readEntries es.length (es.flatMap entryBytes ++ rest) = .ok es := by
  induction es with
  | nil => rfl
  | cons e es ih =>
    rw [List.forall_mem_cons] at hfits
    have hbytes : (e :: es).flatMap entryBytes ++ rest = e.1.encode ++
        (Bytes.ofUInt32 e.2.length.toUInt32 ++ (e.2 ++ (es.flatMap entryBytes ++ rest))) := by
      rw [List.flatMap_cons, entryBytes]
      simp only [List.append_assoc]
    have hlong : ¬ (e.2 ++ (es.flatMap entryBytes ++ rest)).length < e.2.length := by
      rw [List.length_append]
      exact Nat.not_lt.mpr (Nat.le_add_right ..)
    have hkey {b : Bytes} : (InternalKey.decode (e.1.encode ++ b)).mapError Error.key =
        .ok (e.1, e.1.encode.length) := by
      rw [InternalKey.decode_encode hfits.1.key]
      rfl
    rw [List.length_cons, readEntries, hbytes, hkey]
    simp only [bind, Except.bind, List.drop_left, readNumber_append hfits.1.value,
      List.drop_left' (Bytes.length_ofUInt32 _), if_neg hlong, List.take_left, ih hfits.2]
    rfl

theorem readPayload_payload (hfits : ∀ e ∈ es, Entry.Fits e) (hcount : es.length < UInt32.size) :
    readPayload (payload es) = .ok es := by
  rw [readPayload, payload, readNumber_append hcount, List.drop_left' (Bytes.length_ofUInt32 _)]
  have hread : readEntries es.length (es.flatMap entryBytes ++ []) = .ok es :=
    readEntries_flatMap hfits
  rw [List.append_nil] at hread
  exact hread

end Reader

/-! ## Blocks -/

theorem length_hash : (Blake3.hash b).length = rootSize := by
  rw [Blake3.hash, List.length_flatMap]
  simp only [Bytes.length_ofUInt32, List.map_const', List.sum_replicate_nat, Vector.length_toList]
  rfl

/-- The bytes of a block: its checked part, the checksum and the hash. -/
def block (es : List Entry) : Bytes :=
  payload es ++ (Bytes.ofUInt32 (Crc32c.checksum (payload es)) ++ Blake3.hash (payload es))

theorem length_block : (block es).length = (payload es).length + trailerSize := by
  rw [block, List.length_append, List.length_append, Bytes.length_ofUInt32, length_hash]
  rfl

theorem length_entryBytes {e : Entry} :
    (entryBytes e).length = e.1.userKey.length + e.2.length + 17 := by
  rw [entryBytes, List.length_append, List.length_append, InternalKey.length_encode,
    InternalKey.encodedLength, Bytes.length_ofUInt32]
  omega

theorem length_lt_length_payload (es : List Entry) : es.length < (payload es).length := by
  have hentries : es.length ≤ (es.flatMap entryBytes).length := by
    induction es with
    | nil => exact Nat.le_refl 0
    | cons e es ih =>
      rw [List.length_cons, List.flatMap_cons, List.length_append, length_entryBytes]
      omega
  rw [payload, List.length_append, Bytes.length_ofUInt32]
  omega

theorem slice?_mid (hlimit : front.length + mid.length ≤ limit) :
    slice? (front ++ (mid ++ back)) front.length mid.length limit = some mid := by
  rw [slice?, if_pos hlimit, List.drop_left, List.take_left]

/-- Where a handle leads to a block, the block's entries are read. -/
theorem Reader.readBlock_block
    (hslice : slice? r.bytes h.offset.toNat h.length.toNat r.bytes.length = some (block es))
    (hlength : h.length.toNat = (block es).length) (hfits : ∀ e ∈ es, Entry.Fits e) :
    r.readBlock h = .ok es := by
  have hbefore : (block es).length - trailerSize = (payload es).length := by
    rw [length_block, Nat.add_sub_cancel]
  have hlong : ¬ (block es).length ≤ trailerSize := by
    have := length_lt_length_payload es
    rw [length_block]
    omega
  have hcount : es.length < UInt32.size := by
    have hword : h.length.toNat < UInt32.size := h.length.toNat_lt
    have := length_lt_length_payload es
    rw [hlength, length_block] at hword
    omega
  have htake : (block es).take (payload es).length = payload es := List.take_left
  have hdrop : (block es).drop (payload es).length =
      Bytes.ofUInt32 (Crc32c.checksum (payload es)) ++ Blake3.hash (payload es) := List.drop_left
  rw [readBlock, hslice]
  dsimp only
  rw [hlength, if_neg hlong, hbefore, htake, hdrop, List.take_left' (Bytes.length_ofUInt32 _),
    List.drop_left' (Bytes.length_ofUInt32 _), Bytes.toUInt32_ofUInt32]
  simp only [ne_eq, not_true_eq_false, if_false]
  exact readPayload_payload hfits hcount

/-! ## Indices -/

/-- How the index tells of a block at an offset, if it has an entry. -/
def indexFor? (offset : Nat) (es : List Entry) : Option IndexEntry :=
  es.getLast?.map fun e => ⟨e.1, ⟨offset.toUInt64, (block es).length.toUInt32⟩⟩

/-- The index of blocks that stand one behind the other from an offset on. -/
def indexFrom (offset : Nat) : List (List Entry) → List IndexEntry
  | [] => []
  | es :: rest => (indexFor? offset es).toList ++ indexFrom (offset + (block es).length) rest

theorem indexFrom_append : indexFrom n (blocks ++ blocks') =
    indexFrom n blocks ++ indexFrom (n + (blocks.flatMap block).length) blocks' := by
  induction blocks generalizing n with
  | nil => rfl
  | cons es blocks ih =>
    rw [List.cons_append, indexFrom, ih, indexFrom, List.append_assoc, List.flatMap_cons,
      List.length_append, Nat.add_assoc]

/-- A block is read where it stands. -/
theorem Reader.readBlock_mid (hbytes : r.bytes = front ++ (block es ++ back))
    (hlength : r.bytes.length < UInt64.size) (hblock : (block es).length < UInt32.size)
    (hfits : ∀ e ∈ es, Entry.Fits e) :
    r.readBlock ⟨front.length.toUInt64, (block es).length.toUInt32⟩ = .ok es := by
  have hall : r.bytes.length = front.length + ((block es).length + back.length) := by
    rw [hbytes, List.length_append, List.length_append]
  have hoffset : front.length.toUInt64.toNat = front.length :=
    UInt64.toNat_ofNat_of_lt' (by omega)
  have hword : (block es).length.toUInt32.toNat = (block es).length :=
    UInt32.toNat_ofNat_of_lt' hblock
  refine readBlock_block ?_ hword hfits
  rw [hoffset, hword, hall, hbytes]
  exact slice?_mid (by omega)

/-- By their index, the entries of all blocks are read, as long as the lengths and offsets can be
written. -/
theorem Reader.entriesOf_indexFrom (hbytes : r.bytes = front ++ (blocks.flatMap block ++ back))
    (hlength : r.bytes.length < UInt64.size)
    (hblocks : ∀ es ∈ blocks, (block es).length < UInt32.size)
    (hfits : ∀ e ∈ blocks.flatten, Entry.Fits e) :
    r.entriesOf (indexFrom front.length blocks) = (blocks.flatten, none) := by
  induction blocks generalizing front with
  | nil => rfl
  | cons es blocks ih =>
    rw [List.forall_mem_cons] at hblocks
    rw [List.flatten_cons, List.forall_mem_append] at hfits
    rw [List.flatMap_cons, List.append_assoc] at hbytes
    have hmore : r.entriesOf (indexFrom (front.length + (block es).length) blocks) =
        (blocks.flatten, none) := by
      rw [← List.length_append]
      exact ih (by rw [hbytes, List.append_assoc]) hblocks.2 hfits.2
    rw [indexFrom, List.flatten_cons]
    cases hlast : es.getLast? with
    | none =>
      rw [indexFor?, hlast, List.getLast?_eq_none_iff.mp hlast]
      rw [List.getLast?_eq_none_iff.mp hlast] at hmore
      exact hmore
    | some e =>
      rw [indexFor?, hlast, Option.map_some, Option.toList_some, List.singleton_append, entriesOf]
      dsimp only
      rw [readBlock_mid hbytes hlength hblocks.1 hfits.1]
      dsimp only
      rw [hmore]

end Lineage.SortedTable
