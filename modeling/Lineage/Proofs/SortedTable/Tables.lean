import Lineage.Proofs.SortedTable.Blocks
import Lineage.Proofs.Wire

/-!
# Tables made of blocks

`table` puts blocks together to the bytes of a table, with `propertiesOf` them. As long as no length
or offset in it is too large for its field (`Short`), such bytes are opened (`ofBytes_table`), and
all entries of the blocks are read (`entries_opened`). That is so just if no part of it is too long
for a length of four bytes (`tooLarge?_eq_none`).
-/

namespace Lineage.Wire

variable {n : Nat}

theorem roundTrips_raw : RoundTrips (raw n) fun b => b.length = n :=
  fun _ hb _ => run_take hb

end Lineage.Wire

namespace Lineage.SortedTable

open Wire (ShortList RoundTrips)

variable {blocks : List (List Entry)} {n : Nat}

/-! ## Records -/

theorem roundTrips_kind : RoundTrips kindFormat fun _ => True := by
  intro k _ rest
  change (Wire.uint32.read >>= _).run (Wire.uint32.write k.code.toUInt32 ++ rest) = _
  rw [Wire.run_bind_ok (Wire.roundTrips_uint32 _ trivial _)]
  cases k <;> rfl

theorem IndexEntry.roundTrips : RoundTrips format fun e => ShortList e.lastKey.userKey := by
  refine RoundTrips.mono (Wire.roundTrips_via (Wire.roundTrips_pair Wire.roundTrips_bytes <|
    Wire.roundTrips_pair Wire.roundTrips_uint64 <| Wire.roundTrips_pair roundTrips_kind <|
    Wire.roundTrips_pair Wire.roundTrips_uint64 Wire.roundTrips_uint32) fun _ => rfl) fun e he => ?_
  exact ⟨he, trivial, trivial, trivial, trivial⟩

/-- The keys are not too long to be written, and the root is as long as a hash. -/
structure Properties.Fits (p : Properties) : Prop where
  smallest : ShortList p.smallest
  largest : ShortList p.largest
  root : p.root.length = rootSize

theorem Properties.roundTrips : RoundTrips format Fits := by
  refine RoundTrips.mono (Wire.roundTrips_via (Wire.roundTrips_pair Wire.roundTrips_bytes <|
    Wire.roundTrips_pair Wire.roundTrips_bytes <| Wire.roundTrips_pair Wire.roundTrips_uint64 <|
    Wire.roundTrips_pair Wire.roundTrips_uint64 <| Wire.roundTrips_pair Wire.roundTrips_uint64 <|
    Wire.roundTrips_pair Wire.roundTrips_uint64 <| Wire.roundTrips_pair Wire.roundTrips_uint64
      Wire.roundTrips_raw) fun _ => rfl) fun p hp => ?_
  exact ⟨hp.smallest, hp.largest, trivial, trivial, trivial, trivial, trivial, hp.root⟩

theorem Footer.roundTrips : RoundTrips format fun f => f.root.length = rootSize := by
  refine RoundTrips.mono (Wire.roundTrips_via (Wire.roundTrips_pair Wire.roundTrips_uint64 <|
    Wire.roundTrips_pair Wire.roundTrips_uint32 <| Wire.roundTrips_pair Wire.roundTrips_uint64 <|
    Wire.roundTrips_pair Wire.roundTrips_uint32 Wire.roundTrips_raw) fun _ => rfl) fun f hf => ?_
  exact ⟨trivial, trivial, trivial, trivial, hf⟩

theorem IndexEntry.length_write {i : IndexEntry} :
    (format.write i).length = i.lastKey.userKey.length + 32 := by
  change ((Bytes.ofUInt64 i.lastKey.userKey.length.toUInt64 ++ i.lastKey.userKey) ++
    (Bytes.ofUInt64 i.lastKey.sequence ++ (Bytes.ofUInt32 i.lastKey.kind.code.toUInt32 ++
      (Bytes.ofUInt64 i.handle.offset ++ Bytes.ofUInt32 i.handle.length)))).length = _
  simp only [List.length_append, Bytes.length_ofUInt64, Bytes.length_ofUInt32]
  omega

theorem Properties.length_write {p : Properties} (h : p.root.length = rootSize) :
    (format.write p).length = p.smallest.length + p.largest.length + 88 := by
  change ((Bytes.ofUInt64 p.smallest.length.toUInt64 ++ p.smallest) ++
    ((Bytes.ofUInt64 p.largest.length.toUInt64 ++ p.largest) ++
      (Bytes.ofUInt64 p.maxSequence ++ (Bytes.ofUInt64 p.entries ++ (Bytes.ofUInt64 p.tombstones ++
        (Bytes.ofUInt64 p.dataBytes ++ (Bytes.ofUInt64 p.indexBytes ++ p.root))))))).length = _
  simp only [List.length_append, Bytes.length_ofUInt64, h, rootSize]
  omega

theorem Footer.length_write {f : Footer} (h : f.root.length = rootSize) :
    (Footer.format.write f).length = footerSize := by
  change (Bytes.ofUInt64 f.indexOffset ++ (Bytes.ofUInt32 f.indexLength ++
    (Bytes.ofUInt64 f.propertiesOffset ++
      (Bytes.ofUInt32 f.propertiesLength ++ f.root)))).length = _
  simp only [List.length_append, Bytes.length_ofUInt64, Bytes.length_ofUInt32, h]
  rfl

/-! ## What a table says -/

/-- The largest sequence number of some entries, and zero if there is none. -/
def latestIn (es : List Entry) : UInt64 := es.foldl (fun m e => max m e.1.sequence) 0

/-- The number of entries that delete their key. -/
def tombstonesIn (es : List Entry) : Nat := es.countP fun e => e.1.kind = .deletion

def indexBytes (blocks : List (List Entry)) : Bytes := indexFormat.write (indexFrom 0 blocks)

/-- The hash of the blocks' hashes and the index. -/
def rootOf (blocks : List (List Entry)) : Bytes :=
  Blake3.hash ((blocks.flatMap fun es => Blake3.hash (payload es)) ++ indexBytes blocks)

/-- The properties of a table of some blocks. -/
def propertiesOf (blocks : List (List Entry)) : Properties where
  smallest := (blocks.flatten.head?.map fun e => e.1.userKey).getD []
  largest := (blocks.flatten.getLast?.map fun e => e.1.userKey).getD []
  maxSequence := latestIn blocks.flatten
  entries := blocks.flatten.length.toUInt64
  tombstones := (tombstonesIn blocks.flatten).toUInt64
  dataBytes := (blocks.flatMap payload).length.toUInt64
  indexBytes := (indexBytes blocks).length.toUInt64
  root := rootOf blocks

def propertyBytes (blocks : List (List Entry)) : Bytes :=
  Properties.format.write (propertiesOf blocks)

def footerOf (blocks : List (List Entry)) : Footer where
  indexOffset := (blocks.flatMap block).length.toUInt64
  indexLength := (indexBytes blocks).length.toUInt32
  propertiesOffset := ((blocks.flatMap block).length + (indexBytes blocks).length).toUInt64
  propertiesLength := (propertyBytes blocks).length.toUInt32
  root := rootOf blocks

/-- The bytes of a table of some blocks, with the given ones in the place of its index. -/
def tableWith (index : Bytes) (blocks : List (List Entry)) : Bytes :=
  blocks.flatMap block ++ (index ++ (propertyBytes blocks ++
    (Footer.format.write (footerOf blocks) ++ magic)))

/-- The bytes of a table of some blocks. -/
def table (blocks : List (List Entry)) : Bytes := tableWith (indexBytes blocks) blocks

/-- What a table of some blocks is opened to. -/
def opened (blocks : List (List Entry)) : Reader where
  bytes := table blocks
  index := indexFrom 0 blocks
  properties := propertiesOf blocks

/-- The lengths and offsets in a table of some blocks are not too large for their fields. -/
structure Short (blocks : List (List Entry)) : Prop where
  block : ∀ es ∈ blocks, (block es).length < UInt32.size
  index : (indexBytes blocks).length < UInt32.size
  properties : (propertyBytes blocks).length < UInt32.size
  table : (table blocks).length < UInt64.size

instance : Decidable (Short blocks) :=
  decidable_of_iff ((∀ es ∈ blocks, (block es).length < UInt32.size) ∧
      (indexBytes blocks).length < UInt32.size ∧ (propertyBytes blocks).length < UInt32.size ∧
      (table blocks).length < UInt64.size)
    ⟨fun h => ⟨h.1, h.2.1, h.2.2.1, h.2.2.2⟩, fun h => ⟨h.block, h.index, h.properties, h.table⟩⟩

/-! ## Lengths -/

theorem length_indexFrom_le (n : Nat) (blocks : List (List Entry)) :
    (indexFrom n blocks).length ≤ (blocks.flatMap block).length := by
  induction blocks generalizing n with
  | nil => exact Nat.le_refl 0
  | cons es blocks ih =>
    have hone : (indexFor? n es).toList.length ≤ 1 := by
      cases indexFor? n es with
      | none => exact Nat.zero_le 1
      | some e => exact Nat.le_refl 1
    have hmore := ih (n := n + (block es).length)
    have hblock : 1 ≤ (block es).length := by
      rw [length_block, trailerSize]
      omega
    rw [indexFrom, List.flatMap_cons, List.length_append, List.length_append]
    omega

theorem length_tableWith (index : Bytes) (blocks : List (List Entry)) :
    (tableWith index blocks).length = (blocks.flatMap block).length + index.length +
      (propertyBytes blocks).length + (footerSize + magic.length) := by
  rw [tableWith]
  simp only [List.length_append, Footer.length_write (f := footerOf blocks) length_hash]
  omega

theorem length_table : (table blocks).length = (blocks.flatMap block).length +
    (indexBytes blocks).length + (propertyBytes blocks).length + (footerSize + magic.length) :=
  length_tableWith _ _

/-- The index tells of each block in no less than 32 bytes. -/
theorem le_length_indexFrom (hne : ∀ es ∈ blocks, es ≠ []) :
    32 * blocks.length ≤ ((indexFrom n blocks).flatMap IndexEntry.format.write).length := by
  induction blocks generalizing n with
  | nil => exact Nat.le_refl 0
  | cons es blocks ih =>
    rw [List.forall_mem_cons] at hne
    have hmore := ih hne.2 (n := n + (block es).length)
    obtain ⟨e, he⟩ := Option.ne_none_iff_exists'.mp
      (mt List.getLast?_eq_none_iff.mp hne.1)
    rw [indexFrom, indexFor?, he, Option.map_some, Option.toList_some, List.singleton_append,
      List.flatMap_cons, List.length_append, List.length_cons, IndexEntry.length_write]
    omega

theorem length_flatMap_block_le (hblocks : ∀ es ∈ blocks, (block es).length < UInt32.size) :
    (blocks.flatMap block).length ≤ blocks.length * UInt32.size := by
  induction blocks with
  | nil => exact Nat.le_refl 0
  | cons es blocks ih =>
    rw [List.forall_mem_cons] at hblocks
    rw [List.flatMap_cons, List.length_append, List.length_cons, Nat.succ_mul, Nat.add_comm]
    exact Nat.add_le_add (ih hblocks.2) (Nat.le_of_lt hblocks.1)

/-- Where four bytes tell the lengths of all blocks, of the index and of the properties, eight bytes
tell that of the table. -/
theorem short_of_fields (hne : ∀ es ∈ blocks, es ≠ [])
    (hblocks : ∀ es ∈ blocks, (block es).length < UInt32.size)
    (hindex : (indexBytes blocks).length < UInt32.size)
    (hproperties : (propertyBytes blocks).length < UInt32.size) : Short blocks where
  block := hblocks
  index := hindex
  properties := hproperties
  table := by
    have hcount : 32 * blocks.length ≤ (indexBytes blocks).length := by
      have hle := le_length_indexFrom hne (n := 0)
      change _ ≤ (Bytes.ofUInt64 _ ++ _).length
      rw [List.length_append]
      omega
    have hbytes := length_flatMap_block_le hblocks
    have hend : footerSize + magic.length < UInt32.size := by decide
    rw [length_table]
    simp only [UInt32.size, UInt64.size] at *
    omega

/-- What in a table of some blocks is too long for four bytes to tell its length, in the order in
which it is written. -/
def tooLarge? (blocks : List (List Entry)) : Option Corruption :=
  if ∃ es ∈ blocks, UInt32.size ≤ (block es).length then some .blockTooLarge
  else if UInt32.size ≤ (indexBytes blocks).length then some .indexTooLarge
  else if UInt32.size ≤ (propertyBytes blocks).length then some .propertiesTooLarge
  else none

/-- Lengths and offsets fit just if nothing is too long for four bytes. -/
theorem tooLarge?_eq_none (hne : ∀ es ∈ blocks, es ≠ []) :
    tooLarge? blocks = none ↔ Short blocks := by
  rw [tooLarge?]
  constructor
  · intro h
    split at h
    · cases h
    · rename_i hblocks
      split at h
      · cases h
      · rename_i hindex
        split at h
        · cases h
        · rename_i hproperties
          simp only [not_exists, not_and, Nat.not_le] at hblocks
          exact short_of_fields hne hblocks (Nat.lt_of_not_le hindex) (Nat.lt_of_not_le hproperties)
  · intro h
    rw [if_neg fun ⟨es, hes, hle⟩ => Nat.not_le.mpr (h.block es hes) hle,
      if_neg (Nat.not_le.mpr h.index), if_neg (Nat.not_le.mpr h.properties)]

/-! ## Reading it back -/

theorem mem_of_mem_indexFrom {e : IndexEntry} (h : e ∈ indexFrom n blocks) :
    ∃ a ∈ blocks.flatten, e.lastKey = a.1 := by
  induction blocks generalizing n with
  | nil => exact absurd h List.not_mem_nil
  | cons es blocks ih =>
    simp only [indexFrom, List.mem_append, Option.mem_toList, indexFor?,
      Option.map_eq_some_iff] at h
    rcases h with ⟨a, ha, rfl⟩ | h
    · exact ⟨a, List.mem_append_left _ (List.mem_of_mem_getLast? ha), rfl⟩
    · obtain ⟨a, ha, hkey⟩ := ih h
      exact ⟨a, List.mem_append_right _ ha, hkey⟩

theorem decode_indexBytes (hs : Short blocks) (hfits : ∀ e ∈ blocks.flatten, Entry.Fits e) :
    indexFormat.decode (indexBytes blocks) = .ok (indexFrom 0 blocks) := by
  have hlength : ShortList (indexFrom 0 blocks) := by
    have hle := length_indexFrom_le 0 blocks
    have hlt := hs.table
    rw [length_table] at hlt
    exact Nat.lt_of_le_of_lt hle (by omega)
  have hkeys : ∀ e ∈ indexFrom 0 blocks, ShortList e.lastKey.userKey := by
    intro e he
    obtain ⟨a, ha, hkey⟩ := mem_of_mem_indexFrom he
    rw [hkey]
    exact Nat.lt_trans (hfits a ha).key (by decide)
  rw [indexBytes, ← List.append_nil (indexFormat.write _)]
  exact (Wire.roundTrips_list IndexEntry.roundTrips).decode ⟨hlength, hkeys⟩

theorem decode_propertyBytes (hfits : ∀ e ∈ blocks.flatten, Entry.Fits e) :
    Properties.format.decode (propertyBytes blocks) = .ok (propertiesOf blocks) := by
  have hkey : ∀ o : Option Entry, (∀ e ∈ o, e ∈ blocks.flatten) →
      ShortList ((o.map fun e => e.1.userKey).getD []) := by
    intro o ho
    cases o with
    | none => exact (by decide : 0 < UInt64.size)
    | some e => exact Nat.lt_trans (hfits e (ho e rfl)).key (by decide)
  have hfit : (propertiesOf blocks).Fits := {
    smallest := hkey _ fun _ he => List.mem_of_mem_head? he
    largest := hkey _ fun _ he => List.mem_of_mem_getLast? he
    root := length_hash }
  rw [propertyBytes, ← List.append_nil (Properties.format.write _)]
  exact Properties.roundTrips.decode hfit

/-- When bytes are opened: their footer can be read, and what it points at, and the two roots in
them agree. -/
theorem Reader.ofBytes_eq {b index properties : Bytes} {f : Footer} {is : List IndexEntry}
    {p : Properties} (hsize : footerSize + magic.length ≤ b.length)
    (hmagic : b.drop (b.length - magic.length) = magic)
    (hfooter : Footer.format.decode (b.drop (b.length - (footerSize + magic.length))) = .ok f)
    (hindex : slice? b f.indexOffset.toNat f.indexLength.toNat
      (b.length - (footerSize + magic.length)) = some index)
    (hproperties : slice? b f.propertiesOffset.toNat f.propertiesLength.toNat
      (b.length - (footerSize + magic.length)) = some properties)
    (his : indexFormat.decode index = .ok is) (hp : Properties.format.decode properties = .ok p)
    (hroot : p.root = f.root) : ofBytes b = .ok ⟨b, is, p⟩ := by
  simp only [ofBytes, if_neg (Nat.not_lt.mpr hsize), hmagic, hfooter, hindex, hproperties, his, hp,
    hroot, ne_eq, not_true_eq_false, if_false]
  rfl

/-- Nothing that is checked depends on the index: whatever bytes that can be read as one stand in
its place are what the table is opened with. -/
theorem ofBytes_tableWith {index : Bytes} {is : List IndexEntry} (hs : Short blocks)
    (hfits : ∀ e ∈ blocks.flatten, Entry.Fits e) (hi : index.length = (indexBytes blocks).length)
    (his : indexFormat.decode index = .ok is) :
    Reader.ofBytes (tableWith index blocks) =
      .ok ⟨tableWith index blocks, is, propertiesOf blocks⟩ := by
  have hlength := length_tableWith index blocks
  have hall := hs.table
  rw [length_table] at hall
  have hmagic : (tableWith index blocks).drop ((tableWith index blocks).length - magic.length) =
      magic := by
    rw [tableWith, ← List.append_assoc, ← List.append_assoc, ← List.append_assoc]
    exact List.drop_left' (by simp only [List.length_append, Nat.add_sub_cancel])
  have hfront : (tableWith index blocks).length - (footerSize + magic.length) =
      (blocks.flatMap block ++ index ++ propertyBytes blocks).length := by
    simp only [List.length_append]
    omega
  have hfooter : Footer.format.decode ((tableWith index blocks).drop
      ((tableWith index blocks).length - (footerSize + magic.length))) = .ok (footerOf blocks) := by
    rw [hfront, tableWith, ← List.append_assoc, ← List.append_assoc, List.drop_left]
    exact Footer.roundTrips.decode length_hash
  have hindex : (footerOf blocks).indexOffset.toNat = (blocks.flatMap block).length :=
    UInt64.toNat_ofNat_of_lt' (by omega)
  have hindexLength : (footerOf blocks).indexLength.toNat = index.length :=
    (UInt32.toNat_ofNat_of_lt' hs.index).trans hi.symm
  have hproperties : (footerOf blocks).propertiesOffset.toNat =
      (blocks.flatMap block ++ index).length := by
    rw [List.length_append, hi]
    exact UInt64.toNat_ofNat_of_lt' (by omega)
  have hpropertiesLength : (footerOf blocks).propertiesLength.toNat =
      (propertyBytes blocks).length :=
    UInt32.toNat_ofNat_of_lt' hs.properties
  refine Reader.ofBytes_eq (by omega) hmagic hfooter ?_ ?_ his (decode_propertyBytes hfits) rfl
  · rw [hfront, hindex, hindexLength]
    exact slice?_mid (by simp only [List.length_append]; omega)
  · rw [hfront, hproperties, hpropertiesLength, tableWith, ← List.append_assoc]
    exact slice?_mid (by simp only [List.length_append]; omega)

/-- A table is opened, with its index and properties. -/
theorem ofBytes_table (hs : Short blocks) (hfits : ∀ e ∈ blocks.flatten, Entry.Fits e) :
    Reader.ofBytes (table blocks) = .ok (opened blocks) :=
  ofBytes_tableWith hs hfits rfl (decode_indexBytes hs hfits)

/-- All entries of a table that was opened are read. -/
theorem entries_opened (hs : Short blocks) (hfits : ∀ e ∈ blocks.flatten, Entry.Fits e) :
    (opened blocks).entries = (blocks.flatten, none) := by
  have hbytes : (opened blocks).bytes = [] ++ (blocks.flatMap block ++
      (indexBytes blocks ++ (propertyBytes blocks ++
        (Footer.format.write (footerOf blocks) ++ magic)))) := rfl
  exact Reader.entriesOf_indexFrom hbytes hs.table hs.block hfits

end Lineage.SortedTable
