import Lineage.SortedTable.InternalKey

/-!
# The order of internal keys, and reading them back

`InternalKey.Before` says what comes in front of what in a sorted table, and `compare` tells it
(`compare_eq_gt`).

What is long enough to be read has a key's layout with some byte for the kind (`exists_lay`), so
reading is known from what it does there (`decode_lay`): it takes off exactly what writing puts on
(`decode_eq_ok`), and it fails for want of bytes or of a kind, and for nothing else
(`decode_eq_error`).
-/

namespace Lineage.InternalKey

variable {a b k : InternalKey} {rest : Bytes}

/-! ## Order -/

/-- User keys ascend; of one user key, later versions come first, and puts before deletions. -/
def Before (a b : InternalKey) : Prop :=
  compare a.userKey b.userKey = .lt ∨
    a.userKey = b.userKey ∧
      (b.sequence < a.sequence ∨
        a.sequence = b.sequence ∧ a.kind = .put ∧ b.kind = .deletion)

instance : Decidable (Before a b) := inferInstanceAs (Decidable (_ ∨ _))

theorem compare_code_eq_gt {c d : KeyKind} :
    compare c.code d.code = .gt ↔ c = .put ∧ d = .deletion := by
  cases c <;> cases d <;> decide

theorem compare_eq_gt : compare b a = .gt ↔ Before a b := by
  change (compare b.userKey a.userKey).then
    ((compare a.sequence b.sequence).then (compare a.kind.code b.kind.code)) = .gt ↔ _
  rw [Before, Ordering.then_eq_gt, Ordering.then_eq_gt, Std.OrientedCmp.gt_iff_lt,
    Std.compare_eq_iff_eq, Std.compare_eq_gt, Std.compare_eq_iff_eq, compare_code_eq_gt,
    eq_comm (a := b.userKey)]

/-! ## Layout -/

/-- The user key's length can be written in four bytes. -/
def Fits (k : InternalKey) : Prop := k.userKey.length < UInt32.size

instance : Decidable k.Fits := inferInstanceAs (Decidable (_ < _))

theorem length_encode : k.encode.length = k.encodedLength := by
  simp only [encode, encodedLength, List.length_append, Bytes.length_ofUInt32,
    Bytes.length_ofUInt64, List.length_singleton]

theorem appendTo_eq_ok {b c : Bytes} : k.appendTo b = .ok c ↔ k.Fits ∧ c = b ++ k.encode := by
  rw [appendTo, Fits]
  split
  · rename_i hfits
    simp only [hfits, true_and, Except.ok.injEq, eq_comm]
  · rename_i hlarge
    simp only [hlarge, false_and, reduceCtorEq]

theorem ofCode?_eq_some {code : UInt8} {kind : KeyKind} :
    KeyKind.ofCode? code = some kind ↔ code = kind.code := by
  constructor
  · intro h
    unfold KeyKind.ofCode? at h
    split at h <;> cases h <;> rfl
  · rintro rfl
    cases kind <;> rfl

theorem ofCode?_eq_none {code : UInt8} : KeyKind.ofCode? code = none ↔ code ≠ 0 ∧ code ≠ 1 := by
  constructor
  · intro h
    constructor <;> rintro rfl <;> cases h
  · rintro ⟨hdeletion, hput⟩
    cases hkind : KeyKind.ofCode? code with
    | none => rfl
    | some kind =>
      cases kind with
      | deletion => exact absurd (ofCode?_eq_some.mp hkind) hdeletion
      | put => exact absurd (ofCode?_eq_some.mp hkind) hput

/-- A user key behind its length, a sequence number, and any byte for the kind. -/
def lay (u : Bytes) (sequence : UInt64) (code : UInt8) : Bytes :=
  Bytes.ofUInt32 u.length.toUInt32 ++ (u ++ (Bytes.ofUInt64 sequence ++ [code]))

theorem encode_eq_lay : k.encode = lay k.userKey k.sequence k.kind.code := by
  simp only [encode, lay, List.append_assoc]

/-- A byte string that has no room for a length, or for what its length announces. -/
def Short (b : Bytes) : Prop :=
  b.length < 4 ∨ b.length < Bytes.toNat (b.take 4) + 13

section

variable {b u : Bytes} {sequence : UInt64} {code : UInt8}

instance : Decidable (Short b) := inferInstanceAs (Decidable (_ ∨ _))

theorem lay_append : lay u sequence code ++ rest =
    Bytes.ofUInt32 u.length.toUInt32 ++ (u ++ (Bytes.ofUInt64 sequence ++ code :: rest)) := by
  simp only [lay, List.append_assoc, List.singleton_append]

theorem toNat_take_lay (h : u.length < UInt32.size) :
    Bytes.toNat ((lay u sequence code ++ rest).take 4) = u.length := by
  rw [lay_append, List.take_left' (Bytes.length_ofUInt32 _), Bytes.toNat_ofUInt32 h]

/-- What is long enough begins with a user key and a sequence number, and some byte for the kind. -/
theorem exists_lay (h : ¬ Short b) :
    ∃ u sequence code rest, u.length < UInt32.size ∧ b = lay u sequence code ++ rest := by
  obtain ⟨hfour, hall⟩ := not_or.mp h
  have hlen : (b.take 4).length = 4 := by
    rw [List.length_take]
    omega
  have hfits : Bytes.toNat (b.take 4) < UInt32.size := by
    have hlt := Bytes.toNat_lt (b.take 4)
    rwa [hlen] at hlt
  generalize hn : Bytes.toNat (b.take 4) = n at hall hfits
  have hword : Bytes.ofUInt32 n.toUInt32 = b.take 4 := by
    have hback := Bytes.ofUInt32_toUInt32 hlen
    rwa [Bytes.toUInt32, hn] at hback
  have hkey : ((b.drop 4).take n).length = n := by
    rw [List.length_take, List.length_drop]
    omega
  have hsequence : (((b.drop 4).drop n).take 8).length = 8 := by
    rw [List.length_take, List.length_drop, List.length_drop]
    omega
  have hkind : ((b.drop 4).drop n).drop 8 ≠ [] := by
    apply List.ne_nil_of_length_pos
    rw [List.length_drop, List.length_drop, List.length_drop]
    omega
  obtain ⟨code, rest, hcode⟩ := List.exists_cons_of_ne_nil hkind
  refine ⟨(b.drop 4).take n, Bytes.toUInt64 (((b.drop 4).drop n).take 8), code, rest,
    hkey.symm ▸ hfits, ?_⟩
  rw [lay_append, hkey, hword, Bytes.ofUInt64_toUInt64 hsequence, ← hcode,
    List.take_append_drop, List.take_append_drop, List.take_append_drop]

theorem length_lay : (lay u sequence code).length = 4 + u.length + 9 := by
  simp only [lay, List.length_append, Bytes.length_ofUInt32, Bytes.length_ofUInt64,
    List.length_singleton, Nat.add_assoc]

theorem drop_lay_key : (lay u sequence code ++ rest).drop 4 =
    u ++ (Bytes.ofUInt64 sequence ++ code :: rest) := by
  rw [lay_append, List.drop_left' (Bytes.length_ofUInt32 _)]

theorem drop_lay_sequence : (lay u sequence code ++ rest).drop (4 + u.length) =
    Bytes.ofUInt64 sequence ++ code :: rest := by
  rw [← List.drop_drop, drop_lay_key, List.drop_left]

theorem drop_lay_kind : (lay u sequence code ++ rest).drop (4 + u.length + 8) = code :: rest := by
  rw [← List.drop_drop, drop_lay_sequence, List.drop_left' (Bytes.length_ofUInt64 _)]

theorem getElem?_lay (h : u.length < UInt32.size) :
    (lay u sequence code ++ rest)[Bytes.toNat ((lay u sequence code ++ rest).take 4) + 12]? =
      some code := by
  have hplace : u.length + 12 = 4 + u.length + 8 := by omega
  rw [toNat_take_lay h, hplace, ← List.head?_drop, drop_lay_kind, List.head?_cons]

theorem decode_of_short (h : Short b) : decode b = .error .truncated := by
  have hcheck : b.length < 4 ∨ b.length < 4 + Bytes.toNat (b.take 4) + 9 := by
    rw [Short] at h
    omega
  rw [decode]
  exact if_pos hcheck

theorem decode_lay (h : u.length < UInt32.size) :
    decode (lay u sequence code ++ rest) = match KeyKind.ofCode? code with
      | none => .error (.unknownKind code)
      | some kind => .ok (⟨u, sequence, kind⟩, 4 + u.length + 9) := by
  have hlong : ¬ ((lay u sequence code ++ rest).length < 4 ∨
      (lay u sequence code ++ rest).length < 4 + u.length + 9) := by
    rw [List.length_append, length_lay]
    omega
  rw [decode]
  dsimp only
  rw [toNat_take_lay h, if_neg hlong, drop_lay_kind, drop_lay_key, drop_lay_sequence,
    List.take_left, List.take_left' (Bytes.length_ofUInt64 _), Bytes.toUInt64_ofUInt64]
  cases hkind : KeyKind.ofCode? code with
  | none => rw [List.headD_cons, hkind]
  | some kind => rw [List.headD_cons, hkind]

end

theorem decode_eq_ok {b : Bytes} {n : Nat} :
    decode b = .ok (k, n) ↔ k.Fits ∧ n = k.encodedLength ∧ ∃ rest, b = k.encode ++ rest := by
  constructor
  · intro h
    by_cases hshort : Short b
    · rw [decode_of_short hshort] at h
      cases h
    · obtain ⟨u, sequence, code, rest, hfits, rfl⟩ := exists_lay hshort
      rw [decode_lay hfits] at h
      cases hkind : KeyKind.ofCode? code with
      | none =>
        rw [hkind] at h
        cases h
      | some kind =>
        rw [hkind] at h
        cases h
        cases ofCode?_eq_some.mp hkind
        exact ⟨hfits, rfl, rest, by rw [encode_eq_lay]⟩
  · rintro ⟨hfits, rfl, rest, rfl⟩
    rw [encode_eq_lay, decode_lay hfits, ofCode?_eq_some.mpr rfl]
    rfl

theorem decode_encode (h : k.Fits) : decode (k.encode ++ rest) = .ok (k, k.encode.length) :=
  decode_eq_ok.mpr ⟨h, length_encode, rest, rfl⟩

theorem used_of_decode {b : Bytes} {k : InternalKey} {used : Nat} (h : decode b = .ok (k, used)) :
    used = 4 + k.userKey.length + 9 ∧ used ≤ b.length := by
  obtain ⟨-, rfl, rest, rfl⟩ := decode_eq_ok.mp h
  refine ⟨rfl, ?_⟩
  rw [List.length_append, length_encode]
  exact Nat.le_add_right _ _

theorem decode_eq_error {b : Bytes} {e : DecodeError} :
    decode b = .error e ↔ e = .truncated ∧ Short b ∨
      ∃ code, e = .unknownKind code ∧ ¬ Short b ∧
        b[Bytes.toNat (b.take 4) + 12]? = some code ∧ code ≠ 0 ∧ code ≠ 1 := by
  by_cases hshort : Short b
  · simp only [decode_of_short hshort, Except.error.injEq, hshort, not_true, and_true, false_and,
      and_false, exists_false, or_false, eq_comm]
  · obtain ⟨u, sequence, code, rest, hfits, rfl⟩ := exists_lay hshort
    rw [decode_lay hfits, getElem?_lay hfits]
    constructor
    · intro h
      cases hkind : KeyKind.ofCode? code with
      | none =>
        rw [hkind] at h
        cases h
        exact .inr ⟨code, rfl, hshort, rfl, ofCode?_eq_none.mp hkind⟩
      | some kind =>
        rw [hkind] at h
        cases h
    · rintro (⟨-, h⟩ | ⟨_, rfl, -, ⟨⟩, hkind⟩)
      · exact absurd h hshort
      · rw [ofCode?_eq_none.mpr hkind]

/-- A key is appended in its own length and read back from in front of whatever follows; where a
key is read, exactly the bytes that it takes are its writing; and what cannot be read is too short,
or has neither of the two kinds at its end. -/
theorem codec_exact :
    (∀ (k : InternalKey) (p t : Bytes), k.Fits →
      ∃ s, k.appendTo p = .ok (p ++ s) ∧ s.length = k.encodedLength ∧
        decode (s ++ t) = .ok (k, k.encodedLength)) ∧
    (∀ (b : Bytes) (k : InternalKey) (n : Nat), decode b = .ok (k, n) →
      n ≤ b.length ∧ k.appendTo [] = .ok (b.take n)) ∧
    ∀ (b : Bytes) (e : DecodeError), decode b = .error e ↔
      e = .truncated ∧ Short b ∨
        ∃ code, e = .unknownKind code ∧ ¬ Short b ∧
          b[Bytes.toNat (b.take 4) + 12]? = some code ∧ code ≠ 0 ∧ code ≠ 1 := by
  refine ⟨fun k p t hfits => ?_, fun b k n h => ?_, fun b e => decode_eq_error⟩
  · exact ⟨k.encode, appendTo_eq_ok.mpr ⟨hfits, rfl⟩, length_encode,
      decode_eq_ok.mpr ⟨hfits, rfl, t, rfl⟩⟩
  · refine ⟨(used_of_decode h).2, ?_⟩
    obtain ⟨hfits, rfl, rest, rfl⟩ := decode_eq_ok.mp h
    rw [List.take_left' length_encode]
    exact appendTo_eq_ok.mpr ⟨hfits, rfl⟩

end Lineage.InternalKey

namespace Lineage.Sample

open InternalKey

def greeting : InternalKey := ⟨[104, 101, 108, 108, 111], 42, .deletion⟩

/-- What a greeting is written as, behind one byte and in front of two. -/
theorem codec_greeting :
    greeting.Fits ∧
    (∃ s, greeting.appendTo [7] = .ok ([7] ++ s) ∧ s.length = 18 ∧
      decode (s ++ [1, 2]) = .ok (greeting, 18)) ∧
    decode ([5, 0, 0, 0, 104, 101, 108, 108, 111, 42, 0, 0, 0, 0, 0, 0, 0, 0, 1, 2]) =
      .ok (greeting, 18) ∧
    greeting.appendTo [] =
      .ok [5, 0, 0, 0, 104, 101, 108, 108, 111, 42, 0, 0, 0, 0, 0, 0, 0, 0] ∧
    decode [1, 0] = .error .truncated ∧
    decode [1, 0, 0, 0, 107, 1, 0, 0, 0, 0, 0, 0, 0, 9] = .error (.unknownKind 9) := by
  obtain ⟨happended, hread, hfails⟩ := codec_exact
  have hfits : greeting.Fits := by decide
  have hdecode : decode
      [5, 0, 0, 0, 104, 101, 108, 108, 111, 42, 0, 0, 0, 0, 0, 0, 0, 0, 1, 2] =
      .ok (greeting, 18) := rfl
  refine ⟨hfits, happended greeting [7] [1, 2] hfits, hdecode, (hread _ _ _ hdecode).2,
    (hfails _ _).mpr ?_, (hfails _ _).mpr ?_⟩
  · exact .inl ⟨rfl, by decide⟩
  · exact .inr ⟨9, rfl, by decide, rfl, by decide, by decide⟩

end Lineage.Sample
