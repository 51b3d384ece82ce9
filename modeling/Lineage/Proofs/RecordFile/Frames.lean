import Lineage.Proofs.Wire
import Lineage.RecordFile.Basic

/-!
# Files of whole frames

`Framed b rs` says that the bytes `b` are frames, one behind the other, of the records `rs`. Such
bytes can be put behind one another (`Framed.append`) and are replayed to their end
(`replay_framed`); and whatever is replayed without an error is such bytes and a tail that is cut
off (`framed_of_replay`).
-/

namespace Lineage.RecordFile

open Wire (ShortList RoundTrips Exact)

variable {b c payload rest tail : Bytes} {r : Record} {rs qs : List Record} {p : Path}
  {s s' : Replayed} {k v : Bytes} {n : Nat}

/-! ## Records -/

namespace Record

/-- The length of a record can be written in front of it. -/
def Fits (r : Record) : Prop := (format.write r).length < UInt32.size

instance (r : Record) : Decidable r.Fits := inferInstanceAs (Decidable (_ < _))

theorem length_write_put :
    (format.write (put k v)).length = 4 + (8 + k.length) + (8 + v.length) := by
  simp [format, Wire.uint32, Wire.uint64, Wire.bytes]
  omega

theorem length_write_delete : (format.write (delete k)).length = 4 + (8 + k.length) := by
  simp [format, Wire.uint32, Wire.uint64, Wire.bytes]

theorem Fits.delete (h : (put k v).Fits) : (delete k).Fits := by
  rw [Fits, length_write_put] at h
  rw [Fits, length_write_delete]
  omega

theorem shortList_of_length_lt {l : Bytes} (h : l.length < UInt32.size) : ShortList l :=
  Nat.lt_trans h (by decide)

theorem roundTrips : RoundTrips format Fits := by
  intro r hr rest
  cases r with
  | put k v =>
    rw [Fits, length_write_put] at hr
    have hk : ShortList k := shortList_of_length_lt (by omega)
    have hv : ShortList v := shortList_of_length_lt (by omega)
    have hwrite : format.write (put k v) ++ rest =
        Wire.uint32.write 0 ++ (Wire.bytes.write k ++ (Wire.bytes.write v ++ rest)) := by
      simp [format]
    rw [hwrite, format, Wire.run_bind_ok (Wire.roundTrips_uint32 _ trivial _)]
    change (Wire.bytes.read >>= fun k => put k <$> Wire.bytes.read).run _ = _
    rw [Wire.run_bind_ok (Wire.roundTrips_bytes k hk _)]
    exact Wire.run_map_ok (Wire.roundTrips_bytes v hv _)
  | delete k =>
    rw [Fits, length_write_delete] at hr
    have hk : ShortList k := shortList_of_length_lt (by omega)
    have hwrite : format.write (delete k) ++ rest =
        Wire.uint32.write 1 ++ (Wire.bytes.write k ++ rest) := by
      simp [format]
    rw [hwrite, format, Wire.run_bind_ok (Wire.roundTrips_uint32 _ trivial _)]
    exact Wire.run_map_ok (Wire.roundTrips_bytes k hk _)

theorem exact_format : Exact format := by
  intro b r rest h
  obtain ⟨n, b', hn, h⟩ := Wire.run_bind_eq_ok.mp h
  have hb := Wire.exact_uint32 b n b' hn
  split at h
  · obtain ⟨k, b₁, hk, h⟩ := Wire.run_bind_eq_ok.mp h
    obtain ⟨v, b₂, hv, h⟩ := Wire.run_bind_eq_ok.mp h
    cases h
    rw [hb, Wire.exact_bytes _ _ _ hk, Wire.exact_bytes _ _ _ hv]
    simp [format]
  · obtain ⟨k, b₁, hk, h⟩ := Wire.run_bind_eq_ok.mp h
    cases h
    rw [hb, Wire.exact_bytes _ _ _ hk]
    simp [format]
  · cases h

/-- A record that is read from some bytes is no longer than they are. -/
theorem length_write_le (h : format.decode payload = .ok r) :
    (format.write r).length ≤ payload.length :=
  (exact_format.prefix_of_decode h).length_le

theorem decode_write (h : r.Fits) : format.decode (format.write r) = .ok r := by
  rw [← List.append_nil (format.write r)]
  exact roundTrips.decode h

theorem length_frame : r.frame.length = headerSize + (format.write r).length := by
  simp [frame, headerSize]
  omega

end Record

/-! ## What stands in front -/

/-- The four parts of bytes that begin with a whole record. -/
theorem head_eq_record (h : head b = .record payload rest) :
    ∃ length checksum : Bytes, b = length ++ (checksum ++ (payload ++ rest)) ∧ length.length = 4 ∧
      checksum.length = 4 ∧ Bytes.toNat length = payload.length ∧
      Crc32c.checksum payload = Bytes.toUInt32 checksum := by
  rw [head] at h
  dsimp only at h
  split at h
  · cases h
  · rename_i hshort
    split at h
    · rename_i hsum
      cases h
      rw [not_or, Nat.not_lt, Nat.not_lt, headerSize] at hshort
      refine ⟨b.take 4, (b.drop 4).take 4, ?_, ?_, ?_, ?_, hsum⟩
      · have hrest : b.drop (8 + Bytes.toNat (b.take 4)) =
            (b.drop 8).drop (Bytes.toNat (b.take 4)) := by rw [List.drop_drop]
        have hbody : b.drop 8 = (b.drop 4).drop 4 := by rw [List.drop_drop]
        rw [headerSize, hrest, List.take_append_drop, hbody, List.take_append_drop,
          List.take_append_drop]
      · rw [List.length_take]
        omega
      · rw [List.length_take, List.length_drop]
        omega
      · rw [headerSize, List.length_take, List.length_drop]
        omega
    · split at h <;> cases h

theorem head_record {length checksum : Bytes} (hl : length.length = 4) (hc : checksum.length = 4)
    (hlength : Bytes.toNat length = payload.length)
    (hsum : Crc32c.checksum payload = Bytes.toUInt32 checksum) :
    head (length ++ (checksum ++ (payload ++ rest))) = .record payload rest := by
  have htake : (length ++ (checksum ++ (payload ++ rest))).take 4 = length := by
    rw [← hl, List.take_left]
  have hdrop : (length ++ (checksum ++ (payload ++ rest))).drop 4 =
      checksum ++ (payload ++ rest) := by rw [← hl, List.drop_left]
  have hbody : (length ++ (checksum ++ (payload ++ rest))).drop 8 = payload ++ rest := by
    rw [show 8 = 4 + 4 from rfl, ← List.drop_drop, hdrop, ← hc, List.drop_left]
  have hrest : (length ++ (checksum ++ (payload ++ rest))).drop (8 + payload.length) = rest := by
    rw [← List.drop_drop, hbody, List.drop_left]
  have hlong : ¬ ((length ++ (checksum ++ (payload ++ rest))).length < headerSize ∨
      (length ++ (checksum ++ (payload ++ rest))).length < headerSize + payload.length) := by
    simp only [List.length_append, hl, hc, headerSize]
    omega
  have hchecksum : (checksum ++ (payload ++ rest)).take 4 = checksum := by
    rw [← hc, List.take_left]
  rw [head]
  dsimp only
  rw [htake, hlength, if_neg hlong, headerSize, hbody, List.take_left, hdrop, hchecksum,
    if_pos hsum, hrest]

/-- What follows a whole record does not matter. -/
theorem head_append (h : head b = .record payload rest) :
    head (b ++ c) = .record payload (rest ++ c) := by
  obtain ⟨length, checksum, rfl, hl, hc, hlength, hsum⟩ := head_eq_record h
  simp only [List.append_assoc]
  exact head_record hl hc hlength hsum

theorem length_of_head (h : head b = .record payload rest) :
    b.length = headerSize + payload.length + rest.length := by
  obtain ⟨length, checksum, rfl, hl, hc, -, -⟩ := head_eq_record h
  simp only [List.length_append, hl, hc, headerSize]
  omega

theorem length_payload_lt (h : head b = .record payload rest) : payload.length < UInt32.size := by
  obtain ⟨length, checksum, -, hl, -, hlength, -⟩ := head_eq_record h
  have hlt := Bytes.toNat_lt length
  rwa [hl, hlength] at hlt

theorem Record.frame_append (hr : r.Fits) (rest : Bytes) : ∃ length checksum : Bytes,
    r.frame ++ rest = length ++ (checksum ++ (Record.format.write r ++ rest)) ∧
      length.length = 4 ∧ checksum.length = 4 ∧
      Bytes.toNat length = (Record.format.write r).length ∧
      Crc32c.checksum (Record.format.write r) = Bytes.toUInt32 checksum := by
  refine ⟨Bytes.ofUInt32 (Record.format.write r).length.toUInt32,
    Bytes.ofUInt32 (Crc32c.checksum (Record.format.write r)), ?_, Bytes.length_ofUInt32 _,
    Bytes.length_ofUInt32 _, Bytes.toNat_ofUInt32 hr, (Bytes.toUInt32_ofUInt32 _).symm⟩
  simp [Record.frame]

theorem head_frame (hr : r.Fits) :
    head (r.frame ++ rest) = .record (Record.format.write r) rest := by
  obtain ⟨length, checksum, hb, hl, hc, hlength, hsum⟩ := Record.frame_append hr rest
  rw [hb, head_record hl hc hlength hsum]

/-- Whatever follows a frame that was cut off behind its length is read as part of it, as long as
it does not make up for what is missing. -/
theorem head_cut_frame (hr : r.Fits) (hn : 4 ≤ n) (hc : n + c.length < r.frame.length) :
    head (r.frame.take n ++ c) = .torn := by
  obtain ⟨length, checksum, hb, hl, -, htoNat, -⟩ := Record.frame_append hr []
  rw [List.append_nil] at hb
  have htake : (r.frame.take n ++ c).take 4 = length := by
    rw [List.take_append_of_le_length (by rw [List.length_take]; omega), List.take_take,
      Nat.min_eq_left hn, hb, ← hl, List.take_left]
  have hlength : (r.frame.take n ++ c).length = n + c.length := by
    rw [List.length_append, List.length_take]
    omega
  rw [head]
  dsimp only
  rw [if_pos]
  rw [htake, htoNat, ← Record.length_frame, hlength]
  exact .inr hc

/-- A frame that is cut off is taken for one that was being written. -/
theorem head_take_frame (hr : r.Fits) (hn : n < r.frame.length) : head (r.frame.take n) = .torn := by
  by_cases hshort : n < headerSize
  · rw [head]
    dsimp only
    rw [if_pos]
    exact .inl (by rw [List.length_take]; omega)
  · rw [← List.append_nil (r.frame.take n)]
    exact head_cut_frame hr (by rw [headerSize] at hshort; omega) hn

theorem head_nil : head [] = .torn := rfl

/-! ## Whole frames -/

/-- Bytes are frames of records, one behind the other. -/
inductive Framed : Bytes → List Record → Prop where
  | nil : Framed [] []
  | cons {b payload rest : Bytes} {r : Record} {rs : List Record}
      (front : head b = .record payload rest) (decoded : Record.format.decode payload = .ok r)
      (more : Framed rest rs) : Framed b (r :: rs)

/-- The rows that records come to. -/
def rowsOf (rs : List Record) : Rows := rs.foldl Record.applyTo ∅

theorem Framed.append (h : Framed b rs) (h' : Framed c qs) : Framed (b ++ c) (rs ++ qs) := by
  induction h with
  | nil => exact h'
  | cons front decoded _ ih => exact .cons (head_append front) decoded ih

theorem framed_frame (hr : r.Fits) : Framed r.frame [r] :=
  .cons (List.append_nil r.frame ▸ head_frame hr) (Record.decode_write hr) .nil

theorem framed_flatMap (h : ∀ r ∈ rs, r.Fits) : Framed (rs.flatMap Record.frame) rs := by
  induction rs with
  | nil => exact .nil
  | cons r rs ih =>
    rw [List.forall_mem_cons] at h
    rw [List.flatMap_cons]
    exact (framed_frame h.1).append (ih h.2)

/-- The records of a file can be written again. -/
theorem Framed.fits (h : Framed b rs) : ∀ r ∈ rs, r.Fits := by
  induction h with
  | nil => exact fun _ h => absurd h List.not_mem_nil
  | cons front decoded _ ih =>
    refine List.forall_mem_cons.mpr ⟨?_, ih⟩
    exact Nat.lt_of_le_of_lt (Record.length_write_le decoded) (length_payload_lt front)

/-! ## Replay -/

/-- What is replayed once all of some bytes are. -/
def Replayed.takeAll (s : Replayed) (b : Bytes) (rs : List Record) : Replayed where
  rows := rs.foldl Record.applyTo s.rows
  records := s.records + rs.length
  length := s.length + b.length

theorem replayFrom_torn (h : head b = .torn) : replayFrom p s b = .ok s := by
  rw [replayFrom]
  split
  · rfl
  · rename_i h'
    rw [h] at h'
    cases h'
  · rename_i h'
    rw [h] at h'
    cases h'

theorem replayFrom_record (front : head b = .record payload rest)
    (decoded : Record.format.decode payload = .ok r) :
    replayFrom p s b = replayFrom p (s.take r payload) rest := by
  rw [replayFrom]
  split
  · rename_i h
    rw [front] at h
    cases h
  · rename_i h
    rw [front] at h
    cases h
  · rename_i h
    rw [front] at h
    cases h
    rw [decoded]

/-- Bytes that begin with a record which does not agree with its checksum are refused, at the place
that was come to. -/
theorem replayFrom_damaged (h : head b = .damaged) :
    replayFrom p s b = .error (.damaged p s.length) := by
  rw [replayFrom]
  split
  · rename_i h'
    rw [h] at h'
    cases h'
  · rfl
  · rename_i h'
    rw [h] at h'
    cases h'

/-- Whole frames are replayed to their end, and then what follows them. -/
theorem replayFrom_append (h : Framed b rs) :
    replayFrom p s (b ++ c) = replayFrom p (s.takeAll b rs) c := by
  induction h generalizing s with
  | nil => rfl
  | @cons b payload rest r rs front decoded _ ih =>
    have htake : (s.take r payload).takeAll rest rs = s.takeAll b (r :: rs) := by
      simp only [Replayed.takeAll, Replayed.take, length_of_head front, List.foldl_cons,
        List.length_cons, Replayed.mk.injEq, true_and]
      omega
    rw [replayFrom_record (head_append front) decoded, ih, htake]

theorem replayFrom_framed (h : Framed b rs) (ht : head tail = .torn) :
    replayFrom p s (b ++ tail) = .ok (s.takeAll b rs) := by
  rw [replayFrom_append h, replayFrom_torn ht]

theorem framed_of_replayFrom (h : replayFrom p s b = .ok s') :
    ∃ whole tail rs, b = whole ++ tail ∧ Framed whole rs ∧ head tail = .torn ∧
      s' = s.takeAll whole rs := by
  fun_induction replayFrom p s b with
  | case1 s b front =>
    cases h
    exact ⟨[], b, [], rfl, .nil, front, rfl⟩
  | case2 => cases h
  | case3 => cases h
  | case4 s b payload rest front r decoded ih =>
    obtain ⟨whole, tail, rs, rfl, hframed, htail, rfl⟩ := ih h
    obtain ⟨length, checksum, rfl, hl, hc, hlength, hsum⟩ := head_eq_record front
    have hfront : head (length ++ (checksum ++ (payload ++ whole))) = .record payload whole :=
      head_record hl hc hlength hsum
    refine ⟨length ++ (checksum ++ (payload ++ whole)), tail, r :: rs, ?_,
      .cons hfront decoded hframed, htail, ?_⟩
    · simp only [List.append_assoc]
    · simp only [Replayed.takeAll, Replayed.take, length_of_head hfront, List.foldl_cons,
        List.length_cons, Replayed.mk.injEq, true_and]
      omega

theorem replay_framed (h : Framed b rs) (ht : head tail = .torn) :
    replay p (b ++ tail) = .ok ⟨rowsOf rs, rs.length, b.length⟩ := by
  rw [replay, replayFrom_framed h ht]
  simp [Replayed.takeAll, rowsOf]

/-- What is replayed without an error are whole frames and a tail that is cut off. -/
theorem framed_of_replay (h : replay p b = .ok s) :
    ∃ whole tail rs, b = whole ++ tail ∧ Framed whole rs ∧ head tail = .torn ∧
      s = ⟨rowsOf rs, rs.length, whole.length⟩ := by
  obtain ⟨whole, tail, rs, hb, hframed, htail, rfl⟩ := framed_of_replayFrom h
  exact ⟨whole, tail, rs, hb, hframed, htail, by simp [Replayed.takeAll, rowsOf]⟩

/-! ## Rows -/

theorem getElem?_applyTo {rows : Rows} :
    (r.applyTo rows)[k]? = match r with
      | .put k' v' => if k' = k then some v' else rows[k]?
      | .delete k' => if k' = k then none else rows[k]? := by
  cases r with
  | put k' v' =>
    rw [Record.applyTo, Std.ExtTreeMap.getElem?_insert]
    simp only [Std.compare_eq_iff_eq]
  | delete k' =>
    rw [Record.applyTo, Std.ExtTreeMap.getElem?_erase]
    simp only [Std.compare_eq_iff_eq]

theorem erase_eq_self {rows : Rows} (h : ¬ rows.contains k = true) : rows.erase k = rows := by
  refine Std.ExtTreeMap.ext_getElem? fun k' => ?_
  rw [Std.ExtTreeMap.getElem?_erase]
  split
  · rename_i hk
    rw [← Std.compare_eq_iff_eq.mp hk]
    exact (Std.ExtTreeMap.getElem?_eq_none h).symm
  · rfl

/-- A row comes from a record that stored it. -/
theorem put_mem_of_getElem? {rows : Rows} (h : (rs.foldl Record.applyTo rows)[k]? = some v) :
    .put k v ∈ rs ∨ rows[k]? = some v := by
  induction rs generalizing rows with
  | nil => exact .inr h
  | cons r rs ih =>
    rcases ih h with hmem | hrow
    · exact .inl (List.mem_cons_of_mem _ hmem)
    · rw [getElem?_applyTo] at hrow
      cases r with
      | put k' v' =>
        dsimp only at hrow
        split at hrow
        · rename_i hk
          cases hrow
          exact .inl (hk ▸ List.mem_cons_self)
        · exact .inr hrow
      | delete k' =>
        dsimp only at hrow
        split at hrow
        · cases hrow
        · exact .inr hrow

/-- Each row can be written as a record. -/
def RowsFit (rows : Rows) : Prop := ∀ k v : Bytes, rows[k]? = some v → (Record.put k v).Fits

theorem rowsFit_rowsOf (h : ∀ r ∈ rs, r.Fits) : RowsFit (rowsOf rs) := by
  intro k v hrow
  rcases put_mem_of_getElem? hrow with hmem | hempty
  · exact h _ hmem
  · rw [Std.ExtTreeMap.getElem?_empty] at hempty
    cases hempty

/-! ## Files written anew -/

/-- The records that a file is written anew with. -/
def recordsOf (rows : Rows) : List Record := rows.toList.map fun row => .put row.1 row.2

theorem snapshot_eq {rows : Rows} : snapshot rows = (recordsOf rows).flatMap Record.frame := by
  rw [snapshot, recordsOf, List.flatMap_map]

theorem foldl_applyTo_put {l : List (Bytes × Bytes)} {rows : Rows} :
    (l.map fun row => Record.put row.1 row.2).foldl Record.applyTo rows = rows.insertMany l := by
  induction l generalizing rows with
  | nil => exact Std.ExtTreeMap.insertMany_nil.symm
  | cons row l ih => exact ih.trans Std.ExtTreeMap.insertMany_cons.symm

theorem rowsOf_recordsOf {rows : Rows} : rowsOf (recordsOf rows) = rows := by
  rw [rowsOf, recordsOf, foldl_applyTo_put]
  refine Std.ExtTreeMap.ext_getElem? fun k => ?_
  have hdistinct := Std.ExtTreeMap.distinct_keys_toList (t := rows)
  cases hk : rows[k]? with
  | some v =>
    have hmem := Std.ExtTreeMap.mem_toList_iff_getElem?_eq_some.mpr hk
    exact Std.ExtTreeMap.getElem?_insertMany_list_of_mem Std.compare_self hdistinct hmem
  | none =>
    have hkeys : (rows.toList.map Prod.fst).contains k = false := by
      rw [Std.ExtTreeMap.map_fst_toList_eq_keys, Bool.eq_false_iff, ne_eq, List.contains_iff_mem,
        Std.ExtTreeMap.mem_keys, ← Std.ExtTreeMap.isSome_getElem?_iff_mem, hk]
      exact Bool.false_ne_true
    rw [Std.ExtTreeMap.getElem?_insertMany_list_of_contains_eq_false hkeys,
      Std.ExtTreeMap.getElem?_empty]

theorem framed_snapshot {rows : Rows} (h : RowsFit rows) : Framed (snapshot rows) (recordsOf rows) := by
  rw [snapshot_eq]
  refine framed_flatMap fun r hr => ?_
  obtain ⟨row, hrow, rfl⟩ := List.mem_map.mp hr
  exact h _ _ (Std.ExtTreeMap.mem_toList_iff_getElem?_eq_some.mp hrow)

end Lineage.RecordFile
