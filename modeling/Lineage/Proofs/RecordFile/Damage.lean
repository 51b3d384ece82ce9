import Lineage.Proofs.Checksum.Crc32c
import Lineage.Proofs.RecordFile.Requests

/-!
# Damage inside a record file

What becomes of a file when one byte of a record that is not its last one was changed
(`openAt_spoiled`). A record whose checksum or payload was changed no longer agrees with its
checksum, so opening the file is refused and leaves it as it is. A record whose length was changed
is refused as well where it ends in front of the end of the file; a length that reaches the end,
though, makes all that is left of the file look like a record that was being written.
-/

namespace Lineage.RecordFile

variable {b length checksum behind payload front one rest : Bytes} {rs : List Record} {i : Nat}
  {x : UInt8} {d : Disk} {p : Path} {id : FileId} {ratio : Nat}

/-! ## What stands in front -/

theorem toUInt32_inj {a b : Bytes} (ha : a.length = 4) (hb : b.length = 4)
    (h : Bytes.toUInt32 a = Bytes.toUInt32 b) : a = b := by
  rw [← Bytes.ofUInt32_toUInt32 ha, h, Bytes.ofUInt32_toUInt32 hb]

/-- What bytes begin with is decided by their length, their checksum and what is behind these. -/
theorem head_parts (hl : length.length = 4) (hc : checksum.length = 4) :
    head (length ++ (checksum ++ behind)) =
      if behind.length < Bytes.toNat length then .torn
      else if Crc32c.checksum (behind.take (Bytes.toNat length)) = Bytes.toUInt32 checksum then
        .record (behind.take (Bytes.toNat length)) (behind.drop (Bytes.toNat length))
      else if behind.drop (Bytes.toNat length) = [] then .torn
      else .damaged := by
  have htake : (length ++ (checksum ++ behind)).take 4 = length := by rw [← hl, List.take_left]
  have hdrop : (length ++ (checksum ++ behind)).drop 4 = checksum ++ behind := by
    rw [← hl, List.drop_left]
  have hbehind : (length ++ (checksum ++ behind)).drop 8 = behind := by
    rw [show 8 = 4 + 4 from rfl, ← List.drop_drop, hdrop, ← hc, List.drop_left]
  have hchecksum : (checksum ++ behind).take 4 = checksum := by rw [← hc, List.take_left]
  have hshort : ((length ++ (checksum ++ behind)).length < headerSize ∨
      (length ++ (checksum ++ behind)).length < headerSize + Bytes.toNat length) ↔
        behind.length < Bytes.toNat length := by
    simp only [List.length_append, hl, hc, headerSize]
    omega
  rw [head]
  dsimp only
  rw [htake, hdrop, hchecksum, headerSize, ← List.drop_drop, hbehind]
  exact if_congr hshort rfl rfl

theorem set_ne_self {l : Bytes} (hi : i < l.length) (hx : l[i]? ≠ some x) : l.set i x ≠ l := by
  intro h
  apply hx
  rw [← h, List.getElem?_set_self hi]

/-- A record of which a byte behind its length was changed does not agree with its checksum. -/
theorem head_set_damaged (hone : head one = .record payload []) (hfour : 4 ≤ i)
    (hi : i < one.length) (hx : one[i]? ≠ some x) (hrest : rest ≠ []) :
    head (one.set i x ++ rest) = .damaged := by
  obtain ⟨length, checksum, rfl, hl, hc, hlength, hsum⟩ := head_eq_record hone
  rw [List.append_nil] at hi hx ⊢
  have hlong : ¬ (payload ++ rest).length < Bytes.toNat length := by
    rw [hlength, List.length_append]
    omega
  have hdrop : (payload ++ rest).drop (Bytes.toNat length) ≠ [] := by
    rw [hlength, List.drop_left]
    exact hrest
  rw [List.getElem?_append_right (hl ▸ hfour), hl] at hx
  rw [List.set_append_right _ _ (hl ▸ hfour), hl, List.append_assoc]
  simp only [List.length_append, hl] at hi
  by_cases hsecond : i - 4 < checksum.length
  · -- The checksum was changed.
    rw [List.getElem?_append_left hsecond] at hx
    rw [List.set_append_left _ _ hsecond, List.append_assoc,
      head_parts hl (by rw [List.length_set, hc]), if_neg hlong, if_neg, if_neg hdrop]
    rw [hlength, List.take_left, hsum]
    intro h
    have hsame := toUInt32_inj hc (by rw [List.length_set, hc]) h
    exact set_ne_self hsecond hx hsame.symm
  · -- The payload was changed, and keeps its length.
    rw [Nat.not_lt] at hsecond
    rw [List.getElem?_append_right hsecond, hc] at hx
    rw [List.set_append_right _ _ hsecond, hc, List.append_assoc]
    have hset : (payload.set (i - 4 - 4) x).length = payload.length := List.length_set
    have hlong' : ¬ (payload.set (i - 4 - 4) x ++ rest).length < Bytes.toNat length := by
      rw [List.length_append, hset, ← List.length_append]
      exact hlong
    have hinside : i - 4 - 4 < payload.length := by omega
    rw [List.getElem?_eq_getElem hinside] at hx
    rw [head_parts hl hc, if_neg hlong', hlength, ← hset, List.take_left, List.drop_left, if_neg,
      if_neg hrest]
    rw [← hsum]
    exact Crc32c.checksum_set_ne hinside fun h => hx (congrArg some h)

/-! ## Records that were changed -/

/-- Bytes of a file: whole records, one that is to be changed at one byte, and at least one more. -/
structure Spoiled (front one rest : Bytes) (rs : List Record) (i : Nat) (x : UInt8) : Prop where
  before : Framed front rs
  record : ∃ r, Framed one [r]
  behind : ∃ q qs, Framed rest (q :: qs)
  inside : i < one.length
  changed : one[i]? ≠ some x

/-- The length that a record has once a byte of it is changed. -/
def toldLength (one : Bytes) (i : Nat) (x : UInt8) : Nat := Bytes.toNat ((one.set i x).take 4)

/-- What stands behind the header of a record. -/
def behindHeader (one rest : Bytes) : Bytes := one.drop headerSize ++ rest

/-- The checksum of a record, by chance, is that of as many of the bytes behind it as its changed
length tells. -/
def Coincides (one rest : Bytes) (i : Nat) (x : UInt8) : Prop :=
  Crc32c.checksum ((behindHeader one rest).take (toldLength one i x)) =
    Bytes.toUInt32 ((one.drop 4).take 4)

instance : Decidable (Coincides one rest i x) := inferInstanceAs (Decidable (_ = _))

theorem head_of_framed {r : Record} (h : Framed one [r]) :
    ∃ payload, head one = .record payload [] := by
  cases h with
  | @cons _ payload _ _ _ front _ more =>
    cases more
    exact ⟨payload, front⟩

/-- What a record begins with whose length was changed. -/
theorem head_set_length (hone : head one = .record payload []) (hfour : i < 4) :
    head (one.set i x ++ rest) =
      if (behindHeader one rest).length < toldLength one i x then .torn
      else if Coincides one rest i x then
        .record ((behindHeader one rest).take (toldLength one i x))
          ((behindHeader one rest).drop (toldLength one i x))
      else if (behindHeader one rest).drop (toldLength one i x) = [] then .torn
      else .damaged := by
  obtain ⟨length, checksum, rfl, hl, hc, -, -⟩ := head_eq_record hone
  rw [List.append_nil]
  have hset : (length.set i x).length = 4 := by rw [List.length_set, hl]
  have htold : toldLength (length ++ (checksum ++ payload)) i x = Bytes.toNat (length.set i x) := by
    rw [toldLength, List.set_append_left _ _ (hl ▸ hfour), ← hset, List.take_left]
  have hdrop : (length ++ (checksum ++ payload)).drop 4 = checksum ++ payload := by
    rw [← hl, List.drop_left]
  have hbehind : behindHeader (length ++ (checksum ++ payload)) rest = payload ++ rest := by
    rw [behindHeader, headerSize, show 8 = 4 + 4 from rfl, ← List.drop_drop, hdrop, ← hc,
      List.drop_left]
  have hchecksum : (checksum ++ payload).take 4 = checksum := by rw [← hc, List.take_left]
  have hco : Coincides (length ++ (checksum ++ payload)) rest i x ↔
      Crc32c.checksum ((payload ++ rest).take (Bytes.toNat (length.set i x))) =
        Bytes.toUInt32 checksum := by
    rw [Coincides, htold, hbehind, hdrop, hchecksum]
  rw [htold, hbehind, if_congr hco rfl rfl, List.set_append_left _ _ (hl ▸ hfour),
    List.append_assoc, List.append_assoc, head_parts hset hc]

theorem Spoiled.ne_nil (h : Spoiled front one rest rs i x) : rest ≠ [] := by
  obtain ⟨q, qs, hrest⟩ := h.behind
  rintro rfl
  cases hrest with
  | cons front _ _ =>
    rw [head_nil] at front
    cases front

/-! ## Opening -/

/-- A file of at least two records, of which a byte was changed in one that is not the last. If the
byte is not one of the record's length, opening the file is refused, and nothing is done to it. So
it is if the record now ends in front of the end of the file, unless its checksum happens to agree
with what it now holds. But a length that reaches past the end of the file, or just to it, makes the
opening go through where the file can be written anew: it keeps the records in front, and drops this
one and all that follow. -/
theorem openAt_spoiled (hq : d.outage = .quiet)
    (hfile : d.at? p = some (.file id)) (hs : Spoiled front one rest rs i x)
    (hcontent : d.content id = front ++ (one.set i x ++ rest)) (ratio : Nat) :
    (4 ≤ i → Runs (openAt p ratio) d (.error (.damaged p front.length)) d) ∧
    (i < 4 → ¬ Coincides one rest i x → toldLength one i x < (behindHeader one rest).length →
      Runs (openAt p ratio) d (.error (.damaged p front.length)) d) ∧
    (i < 4 → (behindHeader one rest).length < toldLength one i x ∨
        (behindHeader one rest).length = toldLength one i x ∧ ¬ Coincides one rest i x →
      Renewable d p → ∃ t d', Runs (openAt p ratio) d (.ok t) d' ∧ t.path = p ∧ t.rows = rowsOf rs ∧
        t.Open d') := by
  obtain ⟨r, hframed⟩ := hs.record
  obtain ⟨payload, hone⟩ := head_of_framed hframed
  have hrefused (hd : head (one.set i x ++ rest) = .damaged) :
      Runs (openAt p ratio) d (.error (.damaged p front.length)) d := by
    apply runs_openAt_error hq hfile
    rw [hcontent, replay, replayFrom_append hs.before, replayFrom_damaged hd]
    simp only [Replayed.takeAll, Nat.zero_add]
  refine ⟨fun hfour => ?_, fun hfour hno hless => ?_, fun hfour hreach hr => ?_⟩
  · exact hrefused (head_set_damaged hone hfour hs.inside hs.changed hs.ne_nil)
  · apply hrefused
    have hdrop : (behindHeader one rest).drop (toldLength one i x) ≠ [] := by
      rw [Ne, List.drop_eq_nil_iff]
      omega
    rw [head_set_length hone hfour, if_neg (Nat.not_lt.mpr (Nat.le_of_lt hless)), if_neg hno,
      if_neg hdrop]
  · have htorn : head (one.set i x ++ rest) = .torn := by
      rw [head_set_length hone hfour]
      rcases hreach with hpast | ⟨hend, hno⟩
      · rw [if_pos hpast]
      · rw [if_neg (Nat.not_lt.mpr (Nat.le_of_eq hend.symm)), if_neg hno,
          if_pos (List.drop_eq_nil_iff.mpr (Nat.le_of_eq hend))]
    exact exists_runs_openAt hq (hr.ready ratio) hfile hcontent hs.before htorn

end Lineage.RecordFile

namespace Lineage.Sample

open RecordFile

/-! ### Changed records in front of whole ones -/

/-- A record whose first part was changed at one byte, between two others. -/
def spoiled (i : Nat) (x : UInt8) : Disk :=
  shelved ((Record.put [1] [2]).frame ++
    ((Record.put [3] [4]).frame.set i x ++ (Record.put [5] [6]).frame))

theorem spoiled_shelf {i : Nat} {x : UInt8} (hi : i < (Record.put [3] [4]).frame.length)
    (hx : (Record.put [3] [4]).frame[i]? ≠ some x) :
    Spoiled (Record.put [1] [2]).frame (Record.put [3] [4]).frame (Record.put [5] [6]).frame
      [.put [1] [2]] i x where
  before := framed_frame (by decide)
  record := ⟨_, framed_frame (by decide)⟩
  behind := ⟨_, _, framed_frame (by decide)⟩
  inside := hi
  changed := hx

/-- A changed byte of the payload keeps the file from being opened, and a changed length makes the
opening go through with the row in front. -/
theorem openAt_spoiled_shelf :
    Runs (openAt shelf 4) (spoiled 12 0) (.error (.damaged shelf 30)) (spoiled 12 0) ∧
    ∃ t d', Runs (openAt shelf 4) (spoiled 3 255) (.ok t) d' ∧ t.path = shelf ∧ t.rows = oneRow ∧
      t.Open d' := by
  have hpayload : (spoiled 12 0).at? shelf = some (.file 0) := by decide
  have hlength : Renews (spoiled 3 255) ∧ (spoiled 3 255).at? shelf = some (.file 0) := by
    decide
  have hpast : (behindHeader (Record.put [3] [4]).frame (Record.put [5] [6]).frame).length <
      toldLength (Record.put [3] [4]).frame 3 255 := by decide
  constructor
  · exact (openAt_spoiled rfl hpayload (spoiled_shelf (by decide) (by decide)) rfl 4).1 (by decide)
  · exact (openAt_spoiled rfl hlength.2 (spoiled_shelf (by decide) (by decide)) rfl 4).2.2 (by decide)
      (.inl hpast) (renewable_shelf hlength.1)

/-- A changed byte in the length of the first of two records: the file is opened all the same,
without rows, and holds neither of them afterwards. -/
theorem not_openAt_spoiled : ∃ t d',
    Runs (openAt shelf 4) (shelved ((Record.put [1] [2]).frame.set 3 255 ++
      (Record.put [3] [4]).frame)) (.ok t) d' ∧ t.rows = ∅ ∧ d'.bytesAt shelf = .ok [] := by
  have hrun : ((openAt shelf 4).run.run (shelved ((Record.put [1] [2]).frame.set 3 255 ++
      (Record.put [3] [4]).frame))).1.toOption = some ⟨shelf, 1, ∅⟩ := by decide +kernel
  refine ⟨_, _, runs_of_toOption hrun, rfl, eq_ok_of_toOption ?_⟩
  decide +kernel

end Lineage.Sample
