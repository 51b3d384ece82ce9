import Lineage.Proofs.SortedTable.ReadingBack
import Lineage.SortedTable.Stripping

/-!
# What a stripped table holds

A table is stripped if all of its blocks can be read and their keys ascend, whatever its properties
say (`strip_eq_ok`). The copy then gives the same keys without values, and what it says of its
entries is counted anew (`load_stripped`). So it is what the source says of its entries only if that
was true of what its index leads to.
-/

namespace Lineage.SortedTable

variable {r : Reader} {w w' : Writer} {s : Stripped} {pending es given : List Entry} {e : Entry}
  {closed : List (List Entry)}
  {last : Option InternalKey} {index : List IndexEntry} {h : Handle} {size n : Nat} {b b' : Bytes}
  {d d' : Disk} {source target : Path}

/-! ## What is read fits -/

namespace Reader

theorem length_lt_of_readEntries (hread : readEntries n b = .ok es) :
    ∀ e ∈ es, e.1.userKey.length < UInt32.size := by
  induction n generalizing b es with
  | zero =>
    cases hread
    exact fun e he => absurd he List.not_mem_nil
  | succ n ih =>
    rw [readEntries] at hread
    obtain ⟨⟨k, used⟩, hkey, hread⟩ := except_bind_eq_ok.mp hread
    obtain ⟨length, -, hread⟩ := except_bind_eq_ok.mp hread
    dsimp only at hread
    split at hread
    · cases hread
    · obtain ⟨more, hmore, hread⟩ := except_bind_eq_ok.mp hread
      cases hread
      rw [List.forall_mem_cons]
      exact ⟨(InternalKey.decode_eq_ok.mp (except_mapError_eq_ok.mp hkey)).1, ih hmore⟩

theorem length_lt_of_readBlock (hread : r.readBlock h = .ok es) :
    ∀ e ∈ es, e.1.userKey.length < UInt32.size := by
  rw [readBlock] at hread
  split at hread
  · dsimp only at hread
    split at hread
    · cases hread
    · split at hread
      · cases hread
      · split at hread
        · cases hread
        · obtain ⟨n, -, hentries⟩ := except_bind_eq_ok.mp hread
          exact length_lt_of_readEntries hentries
  · cases hread

/-- The keys that are read from a table can be written to one. -/
theorem length_lt_of_mem_entries (he : e ∈ (r.entriesOf index).1) :
    e.1.userKey.length < UInt32.size := by
  induction index with
  | nil => exact absurd he List.not_mem_nil
  | cons i index ih =>
    rw [entriesOf] at he
    split at he
    · exact absurd he List.not_mem_nil
    · rename_i es hread
      rcases List.mem_append.mp he with hes | hmore
      · exact length_lt_of_readBlock hread e hes
      · exact ih hmore

end Reader

/-! ## Stripping -/

/-- An entry without its value. -/
def emptied (e : Entry) : Entry := (e.1, [])

theorem tombstonesIn_map_emptied : tombstonesIn (es.map emptied) = tombstonesIn es := by
  rw [tombstonesIn, List.countP_map]
  rfl

/-- What is come upon in one entry after the other. -/
theorem counted_foldl : (given.foldl Stripped.count s).puts +
    (given.foldl Stripped.count s).tombstones = s.puts + s.tombstones + given.length.toUInt64 := by
  induction given generalizing s with
  | nil => exact (UInt64.add_zero _).symm
  | cons e given ih =>
    have hone : (s.count e).puts + (s.count e).tombstones = s.puts + s.tombstones + 1 := by
      rw [Stripped.count]
      dsimp only
      cases e.1.kind with
      | put =>
        simp only [if_true, reduceCtorEq, if_false, UInt64.add_zero]
        rw [UInt64.add_assoc, UInt64.add_comm 1, ← UInt64.add_assoc]
      | deletion => simp only [if_true, reduceCtorEq, if_false, UInt64.add_zero, UInt64.add_assoc]
    have hlength : (e :: given).length.toUInt64 = given.length.toUInt64 + 1 := UInt64.ofNat_add _ 1
    rw [List.foldl_cons, ih, hone, hlength, UInt64.add_assoc, UInt64.add_comm 1]

/-- The lengths of what is left of entries that were read fit. -/
theorem fits_emptied (r : Reader) : ∀ e ∈ r.entries.1.map emptied, Entry.Fits e := by
  intro e he
  obtain ⟨a, ha, rfl⟩ := List.mem_map.mp he
  have hkey : a.1.userKey.length < UInt32.size := Reader.length_lt_of_mem_entries ha
  exact ⟨hkey, (by decide : 0 < UInt32.size)⟩

/-- Stripping goes on as offering does, up to what is refused first. -/
theorem runs_stripInto {x : Except Error Stripped} (hrun : Runs (stripInto s given) w x w') :
    (w.offerFrom n (given.map emptied) = (w', []) ∧ x = .ok (given.foldl Stripped.count s)) ∨
      ∃ i err, (i, err) ∈ (w.offerFrom n (given.map emptied)).2 ∧ x = .error err := by
  induction given generalizing w s n with
  | nil =>
    obtain ⟨rfl, rfl⟩ := runs_pure.mp hrun
    exact .inl ⟨rfl, rfl⟩
  | cons e given ih =>
    rw [stripInto] at hrun
    rw [List.map_cons, emptied]
    rcases runs_bind.mp hrun with ⟨_, w₁, hadd, hmore⟩ | ⟨err, hadd, rfl⟩
    · rw [Writer.offerFrom_cons hadd]
      rcases ih (n := n + 1) hmore with ⟨hoffer, hx⟩ | hrefused
      · rw [hoffer]
        exact .inl ⟨rfl, hx⟩
      · exact .inr hrefused
    · rw [Writer.offerFrom_cons hadd]
      exact .inr ⟨n, err, List.mem_cons_self, rfl⟩

/-- The blocks of the copy that is made of a table. -/
def strippedBlocks (r : Reader) (size : Nat) : List (List Entry) :=
  cutFrom (max size 64) [] (r.entries.1.map emptied)

theorem flatten_strippedBlocks : (strippedBlocks r size).flatten = r.entries.1.map emptied :=
  flatten_cutFrom

/-- As many entries are written as are counted. -/
theorem entries_strippedBlocks (r : Reader) (size : Nat) :
    (propertiesOf (strippedBlocks r size)).entries =
      (r.entries.1.foldl Stripped.count {}).puts +
        (r.entries.1.foldl Stripped.count {}).tombstones := by
  rw [counted_foldl, propertiesOf, flatten_strippedBlocks, List.length_map]
  exact (UInt64.zero_add _).symm

/-- How stripping a table ends. If its entries are read to the end and ascend, only a part of the
copy that is too long is refused. -/
inductive Strips (r : Reader) (size : Nat) : Bytes × Except Error Stripped → Prop
  | copied (whole : r.entries.2 = none)
      (ascend : refusedFrom 0 none (r.entries.1.map emptied) = [])
      (fits : tooLarge? (strippedBlocks r size) = none) :
      Strips r size (table (strippedBlocks r size), .ok (r.entries.1.foldl Stripped.count {}))
  | refused {b : Bytes} {e : Error}
      (long : r.entries.2 = none → refusedFrom 0 none (r.entries.1.map emptied) = [] →
        ∃ c, tooLarge? (strippedBlocks r size) = some c ∧ e = .corrupt c) :
      Strips r size (b, .error e)

theorem fits_taken_emptied (r : Reader) :
    ∀ e ∈ takenFrom none (r.entries.1.map emptied), Entry.Fits e :=
  fun e he => fits_emptied r e (mem_of_mem_takenFrom he)

theorem blocksOf_emptied (h : refusedFrom 0 none (r.entries.1.map emptied) = []) :
    blocksOf size (r.entries.1.map emptied) = strippedBlocks r size := by
  rw [blocksOf, takenFrom_eq_self h, strippedBlocks]

/-- If nothing was refused, no key was for its order. -/
theorem ascend_of_offer (h : (Writer.new size).offerFrom 0 (r.entries.1.map emptied) = (w, [])) :
    refusedFrom 0 none (r.entries.1.map emptied) = [] := by
  have hmap := (Writer.sorts (w := .new size) (n := 0) (fits_taken_emptied r)).unsorted
  rw [h] at hmap
  exact List.map_eq_nil_iff.mp hmap.symm

/-- If nothing was refused, finishing the copy ends as its blocks say. -/
theorem ends_of_offer {x : Except Error Properties}
    (h : (Writer.new size).offerFrom 0 (r.entries.1.map emptied) = (w, []))
    (hfinish : Runs Writer.finish w x w') : Writer.Ends (strippedBlocks r size) x w' := by
  rw [← blocksOf_emptied (ascend_of_offer h)]
  refine Writer.finish_offer (fits_taken_emptied r) ?_
  rw [Writer.offer, h]
  exact hfinish

theorem strips (r : Reader) (size : Nat) : Strips r size (strip r size) := by
  obtain ⟨x, w, hrun⟩ := exists_runs (writeStripped r) (.new size)
  have hs : strip r size = (w.written, x) := by
    have hrun' : (writeStripped r).run.run (.new size) = (x, w) := hrun
    rw [strip, hrun']
  rw [hs]
  rw [writeStripped] at hrun
  dsimp only at hrun
  rcases runs_bind.mp hrun with ⟨s, w₁, hinto, hend⟩ | ⟨e, hinto, rfl⟩
  · rcases runs_stripInto (n := 0) hinto with ⟨hoffer, hcount⟩ | ⟨_, _, -, hx⟩
    swap
    · cases hx
    cases hcount
    cases hwhole : r.entries.2 with
    | some e =>
      rw [hwhole] at hend
      obtain ⟨rfl, -⟩ := runs_throw.mp hend
      exact .refused fun hnot => by cases hwhole.symm.trans hnot
    | none =>
      rw [hwhole] at hend
      rcases runs_bind.mp hend with ⟨p, w₂, hfinish, hcheck⟩ | ⟨e, hfinish, rfl⟩
      · cases ends_of_offer hoffer hfinish with
        | written fits htable =>
          rw [if_pos (entries_strippedBlocks r size)] at hcheck
          obtain ⟨rfl, rfl⟩ := runs_pure.mp hcheck
          rw [htable]
          exact .copied hwhole (ascend_of_offer hoffer) fits
      · cases ends_of_offer hoffer hfinish with
        | refused long => exact .refused fun _ _ => ⟨_, long, rfl⟩
  · rcases runs_stripInto (n := 0) hinto with ⟨-, hx⟩ | ⟨i, err, hmem, hx⟩
    · cases hx
    · cases hx
      refine .refused fun _ hnone => ⟨.blockTooLarge, ?_⟩
      rw [← blocksOf_emptied hnone]
      exact Writer.long_of_mem_offer (fits_taken_emptied r) hnone hmem

/-- A table is stripped just if all its blocks are read, all its keys are taken, and the lengths in
the copy fit. The properties of the source are not looked at, and those of the copy always agree with
what was counted. -/
theorem strip_eq_ok : strip r size = (b, .ok s) ↔
    r.entries.2 = none ∧ refusedFrom 0 none (r.entries.1.map emptied) = [] ∧
      Short (strippedBlocks r size) ∧ b = table (strippedBlocks r size) ∧
      s = r.entries.1.foldl Stripped.count {} := by
  have hshort : tooLarge? (strippedBlocks r size) = none ↔ Short (strippedBlocks r size) :=
    tooLarge?_eq_none fun _ => ne_nil_of_mem_cutFrom
  have hends := strips r size
  generalize strip r size = x at hends ⊢
  cases hends with
  | copied whole ascend fits =>
    constructor
    · rintro ⟨⟩
      exact ⟨whole, ascend, hshort.mp fits, rfl, rfl⟩
    · rintro ⟨-, -, -, rfl, rfl⟩
      rfl
  | refused long =>
    refine iff_of_false (fun h => by cases h) fun ⟨hwhole, hnone, hs, _⟩ => ?_
    obtain ⟨c, hc, -⟩ := long hwhole hnone
    cases hc.symm.trans (hshort.mpr hs)

theorem fits_strippedBlocks : ∀ e ∈ (strippedBlocks r size).flatten, Entry.Fits e := by
  rw [flatten_strippedBlocks]
  exact fits_emptied r

/-- The table that was loaded is stripped, and the copy stored. -/
theorem runs_stripFile_iff (hload : Runs (load source) d (.ok r) d) :
    Runs (stripFile source target size) d (.ok s) d' ↔
      ∃ b, strip r size = (b, .ok s) ∧ Runs (store target b) d (.ok ()) d' := by
  rw [stripFile, runs_bind_ok]
  constructor
  · rintro ⟨r', d₁, hload', h⟩
    cases hload.symm.trans hload'
    dsimp only at h
    obtain ⟨u, d₂, hstore, h⟩ := runs_bind_ok.mp h
    obtain ⟨hresult, rfl⟩ := runs_ofExcept.mp h
    exact ⟨_, Prod.ext rfl hresult.symm, hstore⟩
  · rintro ⟨b, hs, hstore⟩
    refine ⟨r, d, hload, ?_⟩
    rw [hs]
    exact runs_bind_ok.mpr ⟨(), d', hstore, runs_ofExcept.mpr ⟨rfl, rfl⟩⟩

/-- What the copy of a table holds that was stripped: all keys that the source's index leads to, in
their order and without values, and the numbers of entries and of deletions among them. So these
numbers are those that the source tells just if the source tells the truth about its index; what it
tells is not compared with anything. -/
theorem load_stripped (hq : d.outage = .quiet) (hload : Runs (load source) d (.ok r) d)
    (hstrip : Runs (stripFile source target size) d (.ok s) d') :
    ∃ r', Runs (load target) d' (.ok r') d' ∧
      r.entries.2 = none ∧ r'.entries = (r.entries.1.map emptied, none) ∧
      r'.properties.entries = s.puts + s.tombstones ∧
      r'.properties.Describes (r.entries.1.map emptied) ∧
      (r'.properties.entries = r.properties.entries ∧
          r'.properties.tombstones = r.properties.tombstones ↔
        r.properties.entries.toNat = r.entries.1.length ∧
          r.properties.tombstones.toNat = tombstonesIn r.entries.1) := by
  obtain ⟨b, hs, hstore⟩ := (runs_stripFile_iff hload).mp hstrip
  obtain ⟨hq', id, hat, hcontent⟩ := content_of_store hq hstore
  obtain ⟨hwhole, -, hshort, rfl, hcounted⟩ := strip_eq_ok.mp hs
  have hopen := ofBytes_table hshort fits_strippedBlocks
  have hentries := entries_opened hshort fits_strippedBlocks
  have hdescribes := describes_propertiesOf hshort
  rw [flatten_strippedBlocks] at hentries hdescribes
  refine ⟨_, runs_load hq' hat (hcontent ▸ hopen), hwhole, hentries, ?_, hdescribes, ?_⟩
  · rw [hcounted]
    exact entries_strippedBlocks r size
  · have hlength := hdescribes.entries
    have htombstones := hdescribes.tombstones
    rw [List.length_map] at hlength
    rw [tombstonesIn_map_emptied] at htombstones
    rw [← hlength, ← htombstones, UInt64.toNat_inj, UInt64.toNat_inj]
    exact and_congr eq_comm eq_comm

end Lineage.SortedTable

namespace Lineage.Sample

open SortedTable

/-! ### A table with a damaged index -/

/-- A disk with some bytes in a file. -/
def sourced (b : Bytes) : Disk where
  nodes := (∅ : Std.ExtTreeMap Place Node).insert ["7.sst"] (.file 0)
  contents := (∅ : Std.ExtTreeMap FileId Bytes).insert 0 b
  unused := 1

theorem at?_sourced {b : Bytes} : (sourced b).at? ⟨"7.sst"⟩ = some (.file 0) := by
  rfl

theorem runs_makeParents_sourced {b : Bytes} :
    Runs (Disk.makeParents ⟨"7.tmp"⟩) (sourced b) (.ok ()) (sourced b) := by
  apply Disk.runs_makeParents rfl
  intro dir hdir
  have hparent : Path.parent? ⟨"7.tmp"⟩ = some ⟨""⟩ := by decide
  rw [hparent] at hdir
  cases hdir
  exact .inl (by decide)

theorem accepts_sourced {b : Bytes} : (sourced b).Accepts ⟨"7.tmp"⟩ :=
  ⟨_, _, runs_makeParents_sourced, rfl⟩

/-- What is made of the table in that file can be stored beside it. -/
theorem exists_runs_stripFile_sourced {b b' : Bytes} {r : Reader} {s : Stripped} {size : Nat}
    (hopen : Reader.ofBytes b = .ok r) (hs : strip r size = (b', .ok s)) :
    ∃ d' id, Runs (stripFile ⟨"7.sst"⟩ ⟨"7.tmp"⟩ size) (sourced b) (.ok s) d' ∧
      d'.outage = .quiet ∧ d'.at? ⟨"7.tmp"⟩ = some (.file id) ∧ d'.content id = b' := by
  have hload : Runs (load ⟨"7.sst"⟩) (sourced b) (.ok r) (sourced b) :=
    runs_load rfl at?_sourced hopen
  obtain ⟨d', hstore⟩ := (exists_runs_store_iff (b := b') rfl).mpr accepts_sourced
  obtain ⟨hq', id, hat, hcontent⟩ := content_of_store rfl hstore
  exact ⟨d', id, (runs_stripFile_iff hload).mpr ⟨b', hs, hstore⟩, hq', hat, hcontent⟩

/-- The versions that are taken, cut into blocks: two would be too many, as one has room for all. -/
def twoBlocks : List (List Entry) := cutFrom 64 [] (versions.eraseIdx 1)

/-- The copy of a table that tells the truth has as many entries as it. -/
theorem load_stripped_twoBlocks : ∃ d' r', Runs (stripFile ⟨"7.sst"⟩ ⟨"7.tmp"⟩ 0)
      (sourced (table twoBlocks)) (.ok ⟨2, 1, 1⟩) d' ∧ Runs (load ⟨"7.tmp"⟩) d' (.ok r') d' ∧
      r'.properties.entries = (opened twoBlocks).properties.entries := by
  have hopen : Reader.ofBytes (table twoBlocks) = .ok (opened twoBlocks) :=
    ofBytes_table short_versions (by decide)
  have hentries : (opened twoBlocks).entries = (versions.eraseIdx 1, none) :=
    entries_opened short_versions (by decide)
  have hshort : Short (strippedBlocks (opened twoBlocks) 0) := by
    rw [strippedBlocks, hentries]
    decide +kernel
  have hs : strip (opened twoBlocks) 0 =
      (table (strippedBlocks (opened twoBlocks) 0), .ok ⟨2, 1, 1⟩) := by
    rw [strip_eq_ok, hentries]
    exact ⟨rfl, by decide, hshort, rfl, by decide⟩
  obtain ⟨d', id, hstrip, -⟩ := exists_runs_stripFile_sourced hopen hs
  obtain ⟨r', hload, -, -, -, -, hcounts⟩ :=
    load_stripped rfl (runs_load rfl at?_sourced hopen) hstrip
  have hsame := hcounts.mpr (by rw [hentries]; decide)
  exact ⟨d', r', hstrip, hload, hsame.1⟩

/-- A table of one entry. -/
def oneBlock : List (List Entry) := [[(⟨[97], 1, .put⟩, [])]]

/-- Its bytes, of which one was changed: the index tells of no block. -/
def unindexed : Bytes := tableWith ((indexBytes oneBlock).set 0 0) oneBlock

/-- The table with the changed byte is opened and tells of one entry. It is stripped, to a table
that tells of none. -/
theorem not_load_stripped : ∃ r s d' r',
    Runs (load ⟨"7.sst"⟩) (sourced unindexed) (.ok r) (sourced unindexed) ∧
      Runs (stripFile ⟨"7.sst"⟩ ⟨"7.tmp"⟩ 4096) (sourced unindexed) (.ok s) d' ∧
      Runs (load ⟨"7.tmp"⟩) d' (.ok r') d' ∧ r.properties.entries = 1 ∧
      r'.properties.entries = 0 := by
  have hshort : Short oneBlock := by decide +kernel
  have hopen : Reader.ofBytes unindexed = .ok ⟨unindexed, [], propertiesOf oneBlock⟩ :=
    ofBytes_tableWith hshort (by decide) List.length_set
      (eq_ok_of_toOption (by decide +kernel))
  have hnone : Short [] := by decide +kernel
  have hs : strip ⟨unindexed, [], propertiesOf oneBlock⟩ 4096 = (table [], .ok {}) :=
    strip_eq_ok.mpr ⟨rfl, rfl, hnone, rfl, rfl⟩
  obtain ⟨d', id, hstrip, hq', hat, hcontent⟩ := exists_runs_stripFile_sourced hopen hs
  have hopened : Reader.ofBytes (d'.content id) = .ok (opened []) := by
    rw [hcontent]
    exact ofBytes_table hnone nofun
  exact ⟨_, {}, d', opened [], runs_load rfl at?_sourced hopen, hstrip,
    runs_load hq' hat hopened, rfl, rfl⟩

end Lineage.Sample
