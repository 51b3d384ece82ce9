import Lineage.Proofs.Recovery

/-!
# The order of keys

A table lists its rows in the byte order of their keys. Sequence numbers are padded to one width, so
the rows of a lesser one come first. Times are not: within one sequence number the rows stand in the
order of the texts of the times (`RowKey.compare_encode`), which is that of the times themselves
where these have equally many digits (`RowKey.compare_encode_of_width`).
-/

namespace Lineage

/-! ## Comparing lists -/

theorem compareOfLessAndEq_congr {α β : Type} [LT α] [DecidableLT α] [DecidableEq α] [LT β]
    [DecidableLT β] [DecidableEq β] {a b : α} {x y : β} (hlt : a < b ↔ x < y)
    (heq : a = b ↔ x = y) : compareOfLessAndEq a b = compareOfLessAndEq x y := by
  simp only [compareOfLessAndEq, hlt, heq]

theorem compare_append {α : Type} [Ord α] {as bs xs ys : List α} (h : as.length = bs.length) :
    compare (as ++ xs) (bs ++ ys) = (compare as bs).then (compare xs ys) := by
  induction as generalizing bs with
  | nil =>
    cases List.eq_nil_of_length_eq_zero h.symm
    rfl
  | cons a as ih =>
    obtain ⟨b, bs, rfl⟩ := List.exists_cons_of_length_eq_add_one h.symm
    simp [ih (Nat.succ.inj h), Ordering.then_assoc]

theorem compare_map {α β : Type} [Ord α] [Ord β] {f : α → β} {as bs : List α}
    (h : ∀ a ∈ as, ∀ b ∈ bs, compare (f a) (f b) = compare a b) :
    compare (as.map f) (bs.map f) = compare as bs := by
  induction as generalizing bs with
  | nil => cases bs <;> rfl
  | cons a as ih =>
    cases bs with
    | nil => rfl
    | cons b bs =>
      have hhead := h a List.mem_cons_self b List.mem_cons_self
      have htail := ih fun a ha b hb => h a (List.mem_cons_of_mem _ ha) b (List.mem_cons_of_mem _ hb)
      simp [hhead, htail]

/-! ## Characters of one byte -/

variable {c d : Char} {cs ds : List Char}

/-- A character that is written in one byte. -/
def Ascii (c : Char) : Prop := c.toNat < 128

theorem Ascii.of_isDigit (h : c.isDigit = true) : Ascii c := by
  have hle : c.toNat ≤ 57 := UInt32.le_iff_toNat_le.mp (of_decide_eq_true (Bool.and_eq_true_iff.mp h).2)
  exact Nat.lt_of_le_of_lt hle (by decide)

theorem Ascii.compare_byte (hc : Ascii c) (hd : Ascii d) :
    compare (UInt8.ofNat c.toNat) (UInt8.ofNat d.toNat) = compare c d := by
  have hbyte {e : Char} (he : Ascii e) : (UInt8.ofNat e.toNat).toNat = e.toNat :=
    UInt8.toNat_ofNat_of_lt (Nat.lt_trans he (by decide))
  apply compareOfLessAndEq_congr
  · rw [UInt8.lt_iff_toNat_lt, hbyte hc, hbyte hd]
    rfl
  · rw [← UInt8.toNat_inj, hbyte hc, hbyte hd, Char.toNat_inj]

theorem utf8_of_ascii (h : ∀ c ∈ cs, Ascii c) :
    cs.flatMap String.utf8EncodeChar = cs.map fun c => UInt8.ofNat c.toNat := by
  induction cs with
  | nil => rfl
  | cons c cs ih =>
    rw [List.forall_mem_cons] at h
    have hc : c.toNat ≤ 127 := Nat.le_of_lt_succ h.1
    simp [String.utf8EncodeChar, hc, ih h.2]

/-- Texts of such characters stand in the order of their bytes. -/
theorem compare_utf8 (hcs : ∀ c ∈ cs, Ascii c) (hds : ∀ d ∈ ds, Ascii d) :
    compare (cs.flatMap String.utf8EncodeChar) (ds.flatMap String.utf8EncodeChar) =
      compare cs ds := by
  rw [utf8_of_ascii hcs, utf8_of_ascii hds]
  exact compare_map fun c hc d hd => (hcs c hc).compare_byte (hds d hd)

/-! ## Digits -/

namespace Decimal

/-- A digit is added to ten times what is in front of it, so what is in front decides first. -/
theorem compare_step (hc : c.isDigit = true) (hd : d.isDigit = true) (a b : Nat) :
    compare (10 * a + (c.toNat - '0'.toNat)) (10 * b + (d.toNat - '0'.toNat)) =
      (compare a b).then (compare c d) := by
  obtain ⟨hc, hc'⟩ := bounds_of_isDigit hc
  obtain ⟨hd, hd'⟩ := bounds_of_isDigit hd
  have hzero : '0'.toNat = 48 := rfl
  rw [hzero]
  rcases Nat.lt_trichotomy a b with hab | rfl | hab
  · rw [Nat.compare_eq_lt.mpr hab, Nat.compare_eq_lt.mpr (by omega)]
    rfl
  · rw [Nat.compare_eq_eq.mpr rfl]
    apply compareOfLessAndEq_congr
    · change _ ↔ c.toNat < d.toNat
      omega
    · rw [← Char.toNat_inj]
      omega
  · rw [Nat.compare_eq_gt.mpr hab, Nat.compare_eq_gt.mpr (by omega)]
    rfl

/-- Equally many digits stand in the order of the numbers they write. -/
theorem compare_ofDigitChars (hlength : cs.length = ds.length) (hcs : ∀ c ∈ cs, c.isDigit = true)
    (hds : ∀ d ∈ ds, d.isDigit = true) (a b : Nat) :
    compare (Nat.ofDigitChars 10 cs a) (Nat.ofDigitChars 10 ds b) =
      (compare a b).then (compare cs ds) := by
  induction cs generalizing ds a b with
  | nil =>
    cases List.eq_nil_of_length_eq_zero hlength.symm
    simp
  | cons c cs ih =>
    obtain ⟨d, ds, rfl⟩ := List.exists_cons_of_length_eq_add_one hlength.symm
    rw [List.forall_mem_cons] at hcs hds
    rw [Nat.ofDigitChars_cons, Nat.ofDigitChars_cons, ih (Nat.succ.inj hlength) hcs.2 hds.2,
      compare_step hcs.1 hds.1, Ordering.then_assoc, List.compare_cons_cons]

theorem compare_padded {width m n : Nat} (hm : (Nat.toDigits 10 m).length ≤ width)
    (hn : (Nat.toDigits 10 n).length ≤ width) :
    compare (padded width m) (padded width n) = compare m n := by
  have h := compare_ofDigitChars ((length_padded hm).trans (length_padded hn).symm)
    (fun _ => isDigit_of_mem_padded) (fun _ => isDigit_of_mem_padded) 0 0
  simpa [ofDigitChars_padded] using h.symm

theorem compare_toDigits {m n : Nat} (h : (Nat.toDigits 10 m).length = (Nat.toDigits 10 n).length) :
    compare (Nat.toDigits 10 m) (Nat.toDigits 10 n) = compare m n := by
  have h := compare_ofDigitChars h (fun _ => isDigit_of_mem_toDigits)
    (fun _ => isDigit_of_mem_toDigits) 0 0
  simpa using h.symm

end Decimal

/-! ## Keys -/

namespace RowKey

variable {s s' t t' : UInt64}

theorem ascii_text (h : c ∈ (text s t).toList) : Ascii c := by
  rw [text, String.toList_ofList, List.mem_append, List.mem_cons] at h
  rcases h with h | rfl | h
  · exact .of_isDigit (Decimal.isDigit_of_mem_padded h)
  · exact (by decide : '-'.toNat < 128)
  · exact .of_isDigit (Decimal.isDigit_of_mem_toDigits h)

theorem compare_toNat (a b : UInt64) : compare a.toNat b.toNat = compare a b :=
  compareOfLessAndEq_congr UInt64.lt_iff_toNat_lt.symm UInt64.toNat_inj

/-- Keys stand in the order of the sequence numbers and, for one of them, of the texts of the
times. -/
theorem compare_encode (s t s' t' : UInt64) : compare (encode s t) (encode s' t') =
    (compare s s').then (compare (Nat.toDigits 10 t.toNat) (Nat.toDigits 10 t'.toNat)) := by
  have hs : (Nat.toDigits 10 s.toNat).length ≤ sequenceWidth := Decimal.length_toDigits_le s
  have hs' : (Nat.toDigits 10 s'.toNat).length ≤ sequenceWidth := Decimal.length_toDigits_le s'
  have hwidth : (Decimal.padded sequenceWidth s.toNat).length =
      (Decimal.padded sequenceWidth s'.toNat).length := by
    rw [Decimal.length_padded hs, Decimal.length_padded hs']
  rw [encode, encode, Bytes.ofText, Bytes.ofText, compare_utf8 (fun _ => ascii_text)
    (fun _ => ascii_text), text, text, String.toList_ofList, String.toList_ofList,
    compare_append hwidth, Decimal.compare_padded hs hs', compare_toNat]
  simp

/-- Times have equally many digits. -/
def SameWidth (t t' : UInt64) : Prop :=
  (Nat.toDigits 10 t.toNat).length = (Nat.toDigits 10 t'.toNat).length

instance : Decidable (SameWidth t t') := inferInstanceAs (Decidable (_ = _))

theorem compare_encode_of_width (h : s = s' → SameWidth t t') :
    compare (encode s t) (encode s' t') = (compare s s').then (compare t t') := by
  rw [compare_encode]
  by_cases hs : s = s'
  · rw [Decimal.compare_toDigits (h hs), compare_toNat]
  · cases hcompare : compare s s' with
    | eq => exact absurd (Std.compare_eq_iff_eq.mp hcompare) hs
    | lt => rfl
    | gt => rfl

theorem compare_eq_lt {a b : UInt64} : compare a b = .lt ↔ a < b := by
  rw [← compare_toNat, Nat.compare_eq_lt, UInt64.lt_iff_toNat_lt]

/-- Rows that are scanned stand in the order of their keys. -/
theorem ascending_of_scanRows {ε : Type} {wrap : TableError → ε} {w w' : World}
    {rows : List (Bytes × Bytes)} {cs : List Compaction}
    (h : Runs (World.onHost wrap Host.scanRows) w (.ok rows) w')
    (hkeys : rows.map Prod.fst = cs.map Compaction.key) :
    cs.Pairwise fun a b => compare a.key b.key = .lt := by
  obtain ⟨-, rfl, -⟩ := World.runs_scanRows_ok.mp h
  exact Tracker.ascending_of_keys hkeys

/-- Keys stand in the order of the sequence numbers and, for one of them, of the texts of the times.
That is the order of the times if these have equally many digits. So a scan lists compactions by
sequence number and time, if the times that go with one sequence number have equally many digits. -/
theorem scanned_in_order (s t s' t' : UInt64) :
    compare (encode s t) (encode s' t') =
      (compare s s').then (compare (Nat.toDigits 10 t.toNat) (Nat.toDigits 10 t'.toNat)) ∧
    ((s = s' → SameWidth t t') →
      compare (encode s t) (encode s' t') = (compare s s').then (compare t t')) ∧
    ∀ (w w' : World) (rows : List (Bytes × Bytes)) (cs : List Compaction),
      Runs (World.onHost Tracker.Error.table Host.scanRows) w (.ok rows) w' →
      rows.map Prod.fst = cs.map Compaction.key →
      (cs.Pairwise fun a b => a.sequence = b.sequence → SameWidth a.time b.time) →
      cs.Pairwise fun a b => a.sequence < b.sequence ∨ a.sequence = b.sequence ∧ a.time < b.time := by
  refine ⟨compare_encode s t s' t', compare_encode_of_width, ?_⟩
  intro w w' rows cs hscan hkeys hwidths
  have hasc := ascending_of_scanRows hscan hkeys
  refine (hasc.and hwidths).imp fun {a b} ⟨hlt, hwidth⟩ => ?_
  rw [Compaction.key, Compaction.key, compare_encode_of_width hwidth, Ordering.then_eq_lt,
    Std.compare_eq_iff_eq, compare_eq_lt, compare_eq_lt] at hlt
  exact hlt

end RowKey

end Lineage

/-! ## Times of one width, and of two -/

namespace Lineage.Sample

open Tracker (Error)

/-- The keys that a scan of the history lists. -/
def scannedKeys (w : World) : Option (List Bytes) :=
  ((World.onHost Error.table Host.scanRows).run.run w).1.toOption.map (·.map Prod.fst)

/-- The second compaction has the lesser time, so its row comes first. -/
theorem scanned_backwards :
    RowKey.SameWidth 11 10 ∧
    compare (RowKey.encode 5 11) (RowKey.encode 5 10) = .gt ∧
    ∃ rows w', Runs (World.onHost Error.table Host.scanRows) (recorded 5 11 5 10) (.ok rows) w' ∧
      rows.map Prod.fst = [named 5 10 "b" "c", named 5 11 "a" "b"].map Compaction.key ∧
      [named 5 10 "b" "c", named 5 11 "a" "b"].Pairwise fun a b =>
        a.sequence < b.sequence ∨ a.sequence = b.sequence ∧ a.time < b.time := by
  have hwidth : RowKey.SameWidth 11 10 := by decide +kernel
  have hkeys : scannedKeys (recorded 5 11 5 10) =
      some ([named 5 10 "b" "c", named 5 11 "a" "b"].map Compaction.key) := by decide +kernel
  obtain ⟨rows, hscan, hrows⟩ := Option.map_eq_some_iff.mp hkeys
  refine ⟨hwidth, ?_, rows, _, runs_of_toOption hscan, hrows, ?_⟩
  · rw [(RowKey.scanned_in_order 5 11 5 10).2.1 fun _ => hwidth]
    decide
  · apply (RowKey.scanned_in_order 5 11 5 10).2.2 _ _ rows _ (runs_of_toOption hscan) hrows
    exact List.pairwise_pair.mpr fun _ => hwidth.symm

/-- A time of two digits comes before a lesser one of one digit. -/
theorem scanned_out_of_order :
    compare (RowKey.encode 1 10) (RowKey.encode 1 9) = .lt ∧ (9 : UInt64) < 10 ∧
    scannedKeys (recorded 1 9 1 10) =
      some ([named 1 10 "b" "c", named 1 9 "a" "b"].map Compaction.key) := by
  decide +kernel

end Lineage.Sample
