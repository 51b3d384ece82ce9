import Lineage.Proofs.SortedTable.Lengths

/-!
# Stripping a stripped table

The copy that stripping makes depends on nothing but the keys and the block size, so stripping it
once more gives the same bytes (`strip_strip`). On a disk, a table is stripped if a walk through it
comes to its end over ascending keys, the lengths in the copy fit, and there is a place for it; no
other is (`stripFile_idempotent`).
-/

namespace Lineage

open SortedTable

variable {d d' : Disk} {p source target : Path} {r : Reader}

/-! ## Tables on a disk -/

/-- A path leads to a file that is opened as a table. -/
def Disk.Reads (d : Disk) (p : Path) (r : Reader) : Prop :=
  ∃ id, d.at? p = some (.file id) ∧ Reader.ofBytes (d.content id) = .ok r

theorem Disk.reads_iff : d.Reads p r ↔ ∃ b, d.bytesAt p = .ok b ∧ Reader.ofBytes b = .ok r := by
  constructor
  · rintro ⟨id, hat, hopen⟩
    exact ⟨_, bytesAt_eq hat, hopen⟩
  · rintro ⟨b, hb, hopen⟩
    obtain ⟨id, hat, rfl⟩ := bytesAt_eq_ok.mp hb
    exact ⟨id, hat, hopen⟩

theorem Disk.Reads.unique {r' : Reader} (h : d.Reads p r) (h' : d.Reads p r') : r = r' := by
  obtain ⟨id, hat, hopen⟩ := h
  obtain ⟨id', hat', hopen'⟩ := h'
  cases hat.symm.trans hat'
  cases hopen.symm.trans hopen'
  rfl

namespace SortedTable

variable {c : Cursor} {es es' : List Entry} {failure failure' : Option Error} {s : Stripped}
  {last : Option InternalKey} {size n : Nat} {b : Bytes}

/-- Loading answers what is there, whatever the plan of failures. -/
theorem reads_of_load (h : Runs (load p) d (.ok r) d') :
    d.Reads p r ∧ d' = { d with outage := d.outage.later } := by
  obtain ⟨b, d₁, hmap, h⟩ := runs_bind_ok.mp h
  obtain ⟨hopen, rfl⟩ := runs_ofExcept.mp h
  obtain ⟨rfl, hb⟩ := Disk.runs_query.mp (runs_adapt_ok.mp hmap)
  refine ⟨?_, rfl⟩
  split at hb
  · cases hb
  · split at hb
    · cases hb
    · obtain ⟨id, hat, rfl⟩ := Disk.bytesAt_eq_ok.mp hb.symm
      exact ⟨id, Disk.Within.at?_later.symm.trans hat, hopen.symm⟩

theorem runs_load_iff (hq : d.outage = .quiet) :
    Runs (load p) d (.ok r) d' ↔ d.Reads p r ∧ d' = d := by
  constructor
  · intro h
    obtain ⟨hreads, rfl⟩ := reads_of_load h
    exact ⟨hreads, Disk.later_of_quiet hq⟩
  · rintro ⟨⟨id, hat, hopen⟩, rfl⟩
    exact runs_load hq hat hopen

/-- What a walk gives is determined. -/
theorem Cursor.Yields.unique (h : c.Yields r es failure) (h' : c.Yields r es' failure') :
    es = es' ∧ failure = failure' := by
  induction h generalizing es' failure' with
  | done ended =>
    cases h' with
    | done ended' => exact ⟨rfl, rfl⟩
    | failed fails => cases ended.symm.trans fails
    | entry gives => cases ended.symm.trans gives
  | failed fails _ =>
    cases h' with
    | done ended => cases fails.symm.trans ended
    | failed fails' => cases fails.symm.trans fails'; exact ⟨rfl, rfl⟩
    | entry gives => cases fails.symm.trans gives
  | entry gives _ ih =>
    cases h' with
    | done ended => cases gives.symm.trans ended
    | failed fails => cases gives.symm.trans fails
    | entry gives' more' =>
      cases gives.symm.trans gives'
      obtain ⟨rfl, rfl⟩ := ih more'
      exact ⟨rfl, rfl⟩

theorem Reader.yields_iff : r.cursor.Yields r es failure ↔ r.entries = (es, failure) := by
  constructor
  · intro h
    obtain ⟨hes, hfailure⟩ := r.yields_cursor.unique h
    exact Prod.ext hes hfailure
  · intro h
    have hyields := r.yields_cursor
    rwa [h] at hyields

/-! ## Keys and counts -/

/-- The keys of some entries ascend strictly. -/
def Ascends (es : List Entry) : Prop := (es.map Prod.fst).IsChain InternalKey.Before

instance : Decidable (Ascends es) := inferInstanceAs (Decidable (List.IsChain _ _))

theorem map_fst_emptied : (es.map emptied).map Prod.fst = es.map Prod.fst := by
  rw [List.map_map]
  rfl

theorem map_emptied_emptied : (es.map emptied).map emptied = es.map emptied := by
  rw [List.map_map]
  rfl

theorem refusedFrom_eq_nil : refusedFrom n last es = [] ↔
    (last.toList ++ es.map Prod.fst).IsChain InternalKey.Before := by
  induction es generalizing n last with
  | nil => cases last <;> simp [refusedFrom]
  | cons e es ih =>
    have hfollows : (last.toList ++ (e :: es).map Prod.fst).IsChain InternalKey.Before ↔
        Follows last e.1 ∧ ((e :: es).map Prod.fst).IsChain InternalKey.Before := by
      cases last with
      | none => exact ⟨fun h => ⟨fun _ hl => (by cases hl), h⟩, And.right⟩
      | some l =>
        refine List.isChain_cons_cons.trans (and_congr_left fun _ => ?_)
        exact ⟨fun h _ hl => Option.some.inj hl ▸ h, fun h => h l rfl⟩
    rw [refusedFrom, hfollows]
    split
    · rw [ih]
      exact (and_iff_right ‹_›).symm
    · exact iff_of_false (List.cons_ne_nil _ _) fun h => absurd h.1 ‹_›

/-- No key is refused just if all of them ascend. -/
theorem refusedFrom_emptied : refusedFrom 0 none (es.map emptied) = [] ↔ Ascends es := by
  rw [refusedFrom_eq_nil, map_fst_emptied]
  exact Iff.rfl

/-- The number of entries that put a value. -/
def putsIn (es : List Entry) : Nat := es.countP fun e => e.1.kind = .put

theorem valueBytes_map_emptied : valueBytes (es.map emptied) = 0 := by
  have hnil : ∀ e ∈ es.map emptied, e.2 = [] := by
    intro e he
    obtain ⟨e', -, rfl⟩ := List.mem_map.mp he
    rfl
  rw [valueBytes, List.flatMap_eq_nil_iff.mpr hnil, List.length_nil]

theorem count_eq {e : Entry} : s.count e =
    ⟨s.puts + (putsIn [e]).toUInt64, s.tombstones + (tombstonesIn [e]).toUInt64,
      s.bytesDropped + (valueBytes [e]).toUInt64⟩ := by
  have hvalues : valueBytes [e] = e.2.length := by
    rw [valueBytes, List.flatMap_singleton]
  rw [hvalues]
  obtain ⟨⟨_, _, _ | _⟩, _⟩ := e <;> rfl

/-- What is come upon in one entry after the other. -/
theorem foldl_count : es.foldl Stripped.count s =
    ⟨s.puts + (putsIn es).toUInt64, s.tombstones + (tombstonesIn es).toUInt64,
      s.bytesDropped + (valueBytes es).toUInt64⟩ := by
  induction es generalizing s with
  | nil =>
    change s = ⟨s.puts + 0, s.tombstones + 0, s.bytesDropped + 0⟩
    rw [UInt64.add_zero, UInt64.add_zero, UInt64.add_zero]
  | cons e es ih =>
    have hputs : putsIn (e :: es) = putsIn [e] + putsIn es := @List.countP_append _ _ [e] es
    have htombstones : tombstonesIn (e :: es) = tombstonesIn [e] + tombstonesIn es :=
      @List.countP_append _ _ [e] es
    have hvalues : valueBytes (e :: es) = valueBytes [e] + valueBytes es :=
      @valueBytes_append [e] es
    rw [List.foldl_cons, ih, count_eq, hputs, htombstones, hvalues]
    simp only [Nat.toUInt64_eq, UInt64.ofNat_add, UInt64.add_assoc]

/-- What comes out of stripping is opened, gives the keys without values, and strips to itself. -/
theorem strip_strip (hs : strip r size = (b, .ok s)) : ∃ r', Reader.ofBytes b = .ok r' ∧
    r'.entries = (r.entries.1.map emptied, none) ∧
    r'.properties.Describes (r.entries.1.map emptied) ∧
    strip r' size = (b, .ok { s with bytesDropped := 0 }) := by
  obtain ⟨-, hnone, hshort, rfl, rfl⟩ := strip_eq_ok.mp hs
  have hentries := entries_opened hshort fits_strippedBlocks
  have hdescribes := describes_propertiesOf hshort
  rw [flatten_strippedBlocks] at hentries hdescribes
  have hblocks : strippedBlocks (opened (strippedBlocks r size)) size = strippedBlocks r size := by
    rw [strippedBlocks, hentries, map_emptied_emptied]
    rfl
  refine ⟨_, ofBytes_table hshort fits_strippedBlocks, hentries, hdescribes, ?_⟩
  rw [strip_eq_ok, hblocks, hentries]
  refine ⟨rfl, ?_, hshort, rfl, ?_⟩
  · rwa [map_emptied_emptied]
  · rw [foldl_count, foldl_count, valueBytes_map_emptied, tombstonesIn_map_emptied]
    congr 2
    rw [putsIn, putsIn, List.countP_map]
    rfl

theorem strip_of_ascends {r : Reader} {es : List Entry} (hentries : r.entries = (es, none))
    (h : Ascends es) (hshort : Short (cutFrom (max size 64) [] (es.map emptied))) :
    strip r size = (table (strippedBlocks r size), .ok (r.entries.1.foldl Stripped.count {})) := by
  rw [strip_eq_ok, strippedBlocks, hentries]
  exact ⟨rfl, refusedFrom_emptied.mpr h, hshort, rfl, rfl⟩

theorem exists_stripFile (hq : d.outage = .quiet) (hreads : d.Reads source r)
    (hs : strip r size = (b, .ok s)) (haccepts : d.Accepts target) :
    ∃ d', Runs (stripFile source target size) d (.ok s) d' ∧ d'.outage = .quiet ∧
      ∃ id, d'.at? target = some (.file id) ∧ d'.content id = b := by
  obtain ⟨d', hstore⟩ := (exists_runs_store_iff (b := b) hq).mpr haccepts
  have hload := (runs_load_iff hq).mpr ⟨hreads, rfl⟩
  exact ⟨d', (runs_stripFile_iff hload).mpr ⟨b, hs, hstore⟩, content_of_store hq hstore⟩

end SortedTable

end Lineage

namespace Lineage.Sample

open SortedTable

/-! ### A table that is stripped twice -/

/-- Three versions of two keys, of which the first has a long value. -/
def stock : List Entry :=
  [(⟨[1], 5, .put⟩, List.replicate 60 7), (⟨[1], 5, .deletion⟩, []), (⟨[2], 9, .put⟩, [8])]

/-- The blocks of the table that holds them: one of the long value, and one of the others. -/
def stocked : List (List Entry) := [stock.take 1, stock.drop 1]

theorem short_stocked : Short stocked ∧ Short (cutFrom (max 4096 64) [] (stock.map emptied)) := by
  decide +kernel

theorem yields_stocked : (opened stocked).cursor.Yields (opened stocked) stock none :=
  Reader.yields_iff.mpr (entries_opened short_stocked.1 (by decide))

/-- An entry of a key that ends in the given bytes. -/
def ending (b : Bytes) (i : UInt8) : Entry := (⟨i :: b, 1, .put⟩, [])

end Lineage.Sample
