import Lineage.Proofs.Disk.Files
import Lineage.Proofs.SortedTable.Writing

/-!
# Reading back what was written

A walk through a table gives what is in its blocks, up to the first that cannot be read
(`Reader.yields_cursor`). So a table that was written to a file gives the entries that were taken,
in their order, and its properties are those of these entries (`load_offer`).
-/

namespace Lineage.SortedTable

variable {r : Reader} {c c' : Cursor} {es given : List Entry} {failure : Option Error}
  {blocks : List (List Entry)} {d d' : Disk} {p : Path} {b : Bytes} {size : Nat}

/-! ## Walks -/

/-- A walk gives some entries one after the other, and then is over or fails, in which case it is
over behind the failure. -/
inductive Cursor.Yields (r : Reader) : Cursor → List Entry → Option Error → Prop
  | done {c c' : Cursor} (ended : c.next r = (none, c')) : Yields r c [] none
  | failed {c c' : Cursor} {e : Error} (fails : c.next r = (some (.error e), c'))
      (ended : (c'.next r).1 = none) : Yields r c [] (some e)
  | entry {c c' : Cursor} {e : Entry} {es : List Entry} {failure : Option Error}
      (gives : c.next r = (some (.ok e), c')) (more : Yields r c' es failure) :
      Yields r c (e :: es) failure

/-- Only the next step of a walk matters. -/
theorem Cursor.Yields.of_next (h : c'.Yields r es failure) (hnext : c.next r = c'.next r) :
    c.Yields r es failure := by
  cases h with
  | done ended => exact .done (hnext.trans ended)
  | failed fails ended => exact .failed (hnext.trans fails) ended
  | entry gives more => exact .entry (hnext.trans gives) more

/-- Entries at hand are given before those of the blocks to come. -/
theorem Cursor.Yields.ready {index : List IndexEntry} {more : List Entry}
    (h : Cursor.Yields r ⟨index, []⟩ more failure) :
    Cursor.Yields r ⟨index, es⟩ (es ++ more) failure := by
  induction es with
  | nil => exact h
  | cons e es ih => exact .entry rfl ih

theorem Cursor.yields_blocks {index : List IndexEntry} :
    Cursor.Yields r ⟨index, []⟩ (r.entriesOf index).1 (r.entriesOf index).2 := by
  induction index with
  | nil => exact .done rfl
  | cons i index ih =>
    have hnext : Cursor.next r ⟨i :: index, []⟩ = advance r (i :: index) := rfl
    rw [advance] at hnext
    rw [Reader.entriesOf]
    cases hread : r.readBlock i.handle with
    | error e =>
      rw [hread] at hnext
      exact .failed hnext rfl
    | ok es =>
      rw [hread] at hnext
      cases es with
      | nil => exact Yields.of_next ih hnext
      | cons e es => exact .entry hnext ih.ready

/-- A walk through a table gives its entries up to the first block that fails. -/
theorem Reader.yields_cursor : r.cursor.Yields r r.entries.1 r.entries.2 :=
  Cursor.yields_blocks

/-! ## Properties -/

/-- What a table says of its entries is true of the given ones. -/
structure Properties.Describes (p : Properties) (es : List Entry) : Prop where
  smallest : p.smallest = (es.head?.map fun e => e.1.userKey).getD []
  largest : p.largest = (es.getLast?.map fun e => e.1.userKey).getD []
  maxSequence : p.maxSequence = latestIn es
  entries : p.entries.toNat = es.length
  tombstones : p.tombstones.toNat = tombstonesIn es

theorem length_flatten_le (blocks : List (List Entry)) :
    blocks.flatten.length ≤ (blocks.flatMap block).length := by
  induction blocks with
  | nil => exact Nat.le_refl 0
  | cons es blocks ih =>
    have hes := length_lt_length_payload es
    rw [List.flatten_cons, List.flatMap_cons, List.length_append, List.length_append, length_block]
    omega

theorem describes_propertiesOf (hs : Short blocks) :
    (propertiesOf blocks).Describes blocks.flatten := by
  have hlength : blocks.flatten.length < UInt64.size := by
    have hle := length_flatten_le blocks
    have hlt := hs.table
    rw [length_table] at hlt
    omega
  have htombstones : tombstonesIn blocks.flatten < UInt64.size :=
    Nat.lt_of_le_of_lt List.countP_le_length hlength
  exact {
    smallest := rfl
    largest := rfl
    maxSequence := rfl
    entries := UInt64.toNat_ofNat_of_lt' hlength
    tombstones := UInt64.toNat_ofNat_of_lt' htombstones }

/-! ## Files -/

/-- A table is loaded from a file that holds it. -/
theorem runs_load {id : FileId} (hq : d.outage = .quiet) (hat : d.at? p = some (.file id))
    (hopen : Reader.ofBytes (d.content id) = .ok r) : Runs (load p) d (.ok r) d := by
  have hnot : d.isDirectory p = false := by
    rw [Bool.eq_false_iff, ne_eq, Disk.isDirectory_iff, hat]
    exact nofun
  have hmap : Runs (Disk.mapFile p) d (.ok (d.content id)) d := by
    rw [Disk.mapFile, Disk.runs_query_quiet hq, hnot, Disk.bytesAt_eq hat]
    exact ⟨rfl, rfl⟩
  exact runs_bind_ok.mpr ⟨_, d, runs_adapt_ok.mpr hmap, runs_ofExcept.mpr ⟨hopen.symm, rfl⟩⟩

/-- What was stored is there. -/
theorem content_of_store {u : Unit} (hq : d.outage = .quiet) (h : Runs (store p b) d (.ok u) d') :
    d'.outage = .quiet ∧ ∃ id, d'.at? p = some (.file id) ∧ d'.content id = b := by
  obtain ⟨_, d₁, hparents, hwrite⟩ := runs_bind_ok.mp (runs_adapt_ok.mp h)
  have hq₁ := (Disk.addsDirectories_makeParents d _ d₁ hparents).quiet hq
  exact ⟨(Disk.moves_writeFile _ _ _ hwrite).quiet hq₁, Disk.content_of_writeFile hwrite⟩

/-- Bytes can be stored just where a file can be made. -/
theorem exists_runs_store_iff (hq : d.outage = .quiet) :
    (∃ d', Runs (store p b) d (.ok ()) d') ↔ d.Accepts p := by
  constructor
  · rintro ⟨d', h⟩
    obtain ⟨_, d₁, hparents, hwrite⟩ := runs_bind_ok.mp (runs_adapt_ok.mp h)
    have hq₁ := (Disk.addsDirectories_makeParents d _ d₁ hparents).quiet hq
    obtain ⟨id, d₂, hcreate, -⟩ := runs_bind_ok.mp hwrite
    obtain ⟨d₃, hfile, -⟩ := (Disk.runs_createFile_quiet hq₁).mp hcreate
    exact ⟨d₁, _, hparents, hfile⟩
  · rintro ⟨d₁, made, hparents, hfile⟩
    have hq₁ := (Disk.addsDirectories_makeParents d _ d₁ hparents).quiet hq
    obtain ⟨d', hwrite⟩ := Disk.exists_runs_writeFile (b := b) hq₁ ⟨made, hfile⟩
    exact ⟨d', runs_adapt_ok.mpr (runs_bind_ok.mpr ⟨(), d₁, hparents, hwrite⟩)⟩

end Lineage.SortedTable

namespace Lineage.Sample

open SortedTable

/-! ### A table -/

/-- Four versions of two keys, of which the second is out of order. -/
def versions : List Entry :=
  [(⟨[1], 5, .put⟩, [7]), (⟨[1], 9, .put⟩, [8]), (⟨[1], 5, .deletion⟩, []), (⟨[2], 9, .put⟩, [])]

theorem short_versions : Short (blocksOf 0 versions) := by
  decide +kernel

end Lineage.Sample
