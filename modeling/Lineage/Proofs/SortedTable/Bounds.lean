import Lineage.Proofs.SortedTable.Restripping
import Lineage.SortedTable.Machine

/-!
# The reader never traps

Whatever the bytes of a file are, each step of the machine's reader stays inside of what it reads
from and each size fits (`ofBytes_eq`, `readBlock_eq`). So the machine answers what the reader is
said to answer, and goes on answering that nothing is left (`Walk.answers_eq`).
-/

namespace Lineage.SortedTable.Machine

variable {α : Type} {b p : Bytes} {r : Reader} {h : Handle} {w : Walk} {n : Nat}

/-! ## Single steps -/

section
variable {m : Type → Type} [Monad m] [MonadExceptOf Trap m] {i j : Nat}

theorem add_eq (hij : i + j < UInt64.size) : (add i j : m Nat) = pure (i + j) := if_pos hij

theorem subtract_eq (hij : j ≤ i) : (subtract i j : m Nat) = pure (i - j) := if_pos hij

theorem between_eq (hij : i ≤ j) (hj : j ≤ b.length) :
    (between b i j : m Bytes) = pure ((b.drop i).take (j - i)) := if_pos ⟨hij, hj⟩

theorem between_end (hi : i ≤ b.length) : (between b i b.length : m Bytes) = pure (b.drop i) := by
  rw [between_eq hi (Nat.le_refl _), List.take_of_length_le (Nat.le_of_eq List.length_drop)]

theorem elementAt_eq {l : List α} (hi : i < l.length) : (elementAt l i : m α) = pure l[i] := by
  rw [elementAt, List.getElem?_eq_getElem hi]

end

theorem tail?_eq {i : Nat} (hi : i ≤ b.length) : tail? b i = some (b.drop i) := if_pos hi

/-- A range that stops before a limit does not overflow. -/
theorem range?_eq {offset : UInt64} {length : UInt32} {limit : Nat} (hlimit : limit < UInt64.size) :
    range? offset length limit = if offset.toNat + length.toNat ≤ limit then
      some (offset.toNat, offset.toNat + length.toNat) else none := by
  rw [range?]
  congr 1
  exact propext ⟨And.right, fun hle => ⟨Nat.lt_of_le_of_lt hle hlimit, hle⟩⟩

theorem toNat_take_lt : Bytes.toNat (b.take 4) < UInt32.size :=
  Nat.lt_of_lt_of_le (Bytes.toNat_lt _)
    (Nat.pow_le_pow_right (by decide) (List.length_take_le 4 b))

/-! ## Blocks -/

theorem readKey_eq : readKey b = ofExcept ((InternalKey.decode b).mapError Error.key) := by
  have hword := toNat_take_lt (b := b)
  have hsize : UInt32.size + 16 < UInt64.size := by decide
  rw [readKey, InternalKey.decode]
  dsimp only
  by_cases hfour : b.length < 4
  · rw [if_pos hfour, if_pos (.inl hfour)]
    rfl
  rw [if_neg hfour, add_eq (by omega), pure_bind, add_eq (by omega), pure_bind, add_eq (by omega),
    pure_bind]
  by_cases hlong : b.length < 4 + Bytes.toNat (b.take 4) + 8 + 1
  · rw [if_pos hlong, if_pos (.inr hlong)]
    rfl
  have hcode : 4 + Bytes.toNat (b.take 4) + 8 < b.length := by omega
  rw [if_neg hlong, if_neg (not_or.mpr ⟨hfour, hlong⟩), pure_bind, between_eq (by omega) (by omega),
    pure_bind, pure_bind, add_eq (by omega), pure_bind, between_eq (by omega) (by omega), pure_bind,
    pure_bind, elementAt_eq hcode, pure_bind, Nat.add_sub_cancel_left, Nat.add_sub_cancel_left,
    List.headD_eq_head?_getD, List.head?_drop, List.getElem?_eq_getElem hcode, Option.getD_some]
  cases KeyKind.ofCode? b[4 + Bytes.toNat (b.take 4) + 8] <;> rfl

theorem readEntries_eq (hp : p.length < UInt64.size) {count offset : Nat} (ho : offset ≤ p.length) :
    readEntries p count offset = ofExcept (Reader.readEntries count (p.drop offset)) := by
  induction count generalizing offset with
  | zero => rfl
  | succ count ih =>
    rw [readEntries, Reader.readEntries, tail?_eq ho]
    dsimp only
    rw [readKey_eq]
    cases hkey : InternalKey.decode (p.drop offset) with
    | error e => rfl
    | ok k =>
      obtain ⟨key, used⟩ := k
      have hused := (InternalKey.used_of_decode hkey).2
      rw [List.length_drop] at hused
      have hkeyEnd : offset + used ≤ p.length := by omega
      change ((add offset used : Steps Nat) >>= _) =
        ofExcept (Reader.readNumber ((p.drop offset).drop used) >>= _)
      rw [add_eq (by omega), pure_bind, tail?_eq hkeyEnd, Option.getD_some, List.drop_drop,
        readNumber]
      cases hnumber : Reader.readNumber (p.drop (offset + used)) with
      | error e => rfl
      | ok length =>
        have hfour := (Reader.four_le_of_readNumber hnumber).1
        rw [List.length_drop] at hfour
        change ((add (offset + used) 4 : Steps Nat) >>= _) = _
        rw [add_eq (by omega), pure_bind]
        change _ = ofExcept (if ((p.drop (offset + used)).drop 4).length < length then _ else _)
        simp only [List.drop_drop, List.length_drop]
        by_cases hlong : p.length < offset + used + 4 + length
        · rw [if_pos (.inr hlong), if_pos (by omega)]
          rfl
        · rw [if_neg (by omega), if_neg (by omega), add_eq (by omega), pure_bind,
            between_eq (by omega) (by omega), pure_bind, pure_bind, ih (by omega),
            Nat.add_sub_cancel_left]
          cases Reader.readEntries count (p.drop (offset + used + 4 + length)) <;> rfl

theorem readNumber_eq {i : Nat} (hb : i + 4 ≤ b.length) :
    readNumber (b.drop i) = pure (Bytes.toNat ((b.drop i).take 4)) := by
  rw [readNumber, Reader.readNumber, if_neg (by rw [List.length_drop]; omega)]
  rfl

theorem readNumber_payload (hp : p.length < UInt64.size) : (readNumber p >>= fun count =>
    readEntries p count 4) = ofExcept (Reader.readPayload p) := by
  rw [readNumber, Reader.readPayload]
  cases hnumber : Reader.readNumber p with
  | error e => rfl
  | ok count => exact readEntries_eq hp (Reader.four_le_of_readNumber hnumber).1

theorem toNat_ne_iff {word : UInt32} (hb : b.length = 4) :
    word.toNat ≠ Bytes.toNat b ↔ word ≠ Bytes.toUInt32 b := by
  have hlt : Bytes.toNat b < Nat.pow 256 4 := hb ▸ Bytes.toNat_lt b
  have hword : (Bytes.toUInt32 b).toNat = Bytes.toNat b := UInt32.toNat_ofNat_of_lt' hlt
  rw [← hword, ne_eq, UInt32.toNat_inj]

/-- Reading a block traps nowhere. -/
theorem readBlock_eq (hr : r.bytes.length < UInt64.size) :
    readBlock r h = ofExcept (r.readBlock h) := by
  rw [readBlock, Reader.readBlock, range?_eq hr, slice?]
  by_cases hin : h.offset.toNat + h.length.toNat ≤ r.bytes.length
  swap
  · rw [if_neg hin, if_neg hin]
    rfl
  rw [if_pos hin, if_pos hin]
  dsimp only
  by_cases hshort : h.length.toNat ≤ trailerSize
  · rw [if_pos hshort, if_pos hshort]
    rfl
  obtain ⟨middle, hmiddle⟩ : ∃ m, m = h.offset.toNat + h.length.toNat - trailerSize := ⟨_, rfl⟩
  have htrailer : trailerSize = 36 := rfl
  have hlength : ((r.bytes.drop h.offset.toNat).take h.length.toNat).length = h.length.toNat := by
    rw [List.length_take, List.length_drop]
    omega
  -- The parts of the block are the slices that the machine takes of the file.
  have hchecked : ((r.bytes.drop h.offset.toNat).take h.length.toNat).take
      (h.length.toNat - trailerSize) =
      (r.bytes.drop h.offset.toNat).take (middle - h.offset.toNat) := by
    rw [List.take_take]
    congr 1
    omega
  have hbehind : ((r.bytes.drop h.offset.toNat).take h.length.toNat).drop
      (h.length.toNat - trailerSize) = (r.bytes.drop middle).take trailerSize := by
    rw [List.drop_take, List.drop_drop]
    congr 2 <;> omega
  have hfour : ((r.bytes.drop middle).take 4).length = 4 := by
    rw [List.length_take, List.length_drop]
    omega
  have hmin : min 4 trailerSize = 4 := rfl
  have hstop : h.offset.toNat + h.length.toNat - (middle + 4) = trailerSize - 4 := by omega
  have hp : ((r.bytes.drop h.offset.toNat).take (middle - h.offset.toNat)).length <
      UInt64.size := by
    rw [List.length_take, List.length_drop]
    omega
  rw [if_neg hshort, if_neg hshort, hlength, hchecked, hbehind, List.take_take, hmin,
    List.drop_take, List.drop_drop, subtract_eq (by omega), pure_bind, ← hmiddle,
    between_eq (by omega) (by omega), pure_bind, between_end (by omega), pure_bind,
    readNumber_eq (by omega), pure_bind, add_eq (by omega), pure_bind,
    between_eq (by omega) hin, pure_bind, hstop]
  simp only [toNat_ne_iff hfour, readNumber_payload hp]
  split
  · rfl
  · split <;> rfl

/-! ## Opening -/

theorem length_slice {i k : Nat} (hb : i + k ≤ b.length) : ((b.drop i).take k).length = k := by
  rw [List.length_take, List.length_drop]
  omega

theorem drop_eq_append (i k : Nat) (b : Bytes) :
    b.drop i = (b.drop i).take k ++ b.drop (i + k) := by
  rw [← List.drop_drop, List.take_append_drop]

/-- The footer that some bytes hold. -/
def footerIn (b : Bytes) : Footer where
  indexOffset := Bytes.toUInt64 ((b.drop 0).take 8)
  indexLength := Bytes.toUInt32 ((b.drop 8).take 4)
  propertiesOffset := Bytes.toUInt64 ((b.drop 12).take 8)
  propertiesLength := Bytes.toUInt32 ((b.drop 20).take 4)
  root := (b.drop 24).take rootSize

/-- Bytes that are long enough hold a footer, whatever follows it. -/
theorem decode_footer (hb : footerSize ≤ b.length) :
    Footer.format.decode b = .ok (footerIn b) := by
  have hlength : 56 ≤ b.length := hb
  have hbytes : b = Footer.format.write (footerIn b) ++ b.drop 56 := by
    change b = (Bytes.ofUInt64 (Bytes.toUInt64 ((b.drop 0).take 8)) ++
      (Bytes.ofUInt32 (Bytes.toUInt32 ((b.drop 8).take 4)) ++
        (Bytes.ofUInt64 (Bytes.toUInt64 ((b.drop 12).take 8)) ++
          (Bytes.ofUInt32 (Bytes.toUInt32 ((b.drop 20).take 4)) ++
            (b.drop 24).take 32)))) ++ b.drop 56
    rw [Bytes.ofUInt64_toUInt64 (length_slice (by omega)),
      Bytes.ofUInt32_toUInt32 (length_slice (by omega)),
      Bytes.ofUInt64_toUInt64 (length_slice (by omega)),
      Bytes.ofUInt32_toUInt32 (length_slice (by omega))]
    simp only [List.append_assoc]
    rw [← drop_eq_append 24 32, ← drop_eq_append 20 4, ← drop_eq_append 12 8,
      ← drop_eq_append 8 4, ← drop_eq_append 0 8, List.drop_zero]
  have hroot : (footerIn b).root.length = rootSize := length_slice hlength
  have hdecode : Footer.format.decode (Footer.format.write (footerIn b) ++ b.drop 56) =
      .ok (footerIn b) := Footer.roundTrips.decode hroot
  rwa [← hbytes] at hdecode

theorem slice_take {i k : Nat} (hn : i + k ≤ n) :
    ((b.take n).drop i).take k = (b.drop i).take k := by
  rw [List.drop_take, List.take_take, Nat.min_eq_left (by omega)]

theorem readWord_eq {i : Nat} (hb : i + 8 ≤ b.length) :
    readWord (b.drop i) = pure (Bytes.toUInt64 ((b.drop i).take 8)) :=
  if_neg (by rw [List.length_drop]; omega)

theorem readFooter_eq (hb : footerSize ≤ b.length) :
    readFooter (b.take footerSize) = pure (footerIn b) := by
  have hsize : footerSize = 56 := rfl
  have hlength : (b.take footerSize).length = footerSize := List.length_take_of_le hb
  rw [readFooter, if_neg (not_not_intro hlength)]
  dsimp only
  rw [between_eq (by omega) (by omega), pure_bind,
    between_end (by omega), pure_bind, readWord_eq (by omega), pure_bind, between_end (by omega),
    pure_bind, readNumber_eq (by omega), pure_bind, between_end (by omega), pure_bind,
    readWord_eq (by omega), pure_bind, between_end (by omega), pure_bind,
    readNumber_eq (by omega), pure_bind, slice_take (by omega), slice_take (by omega),
    slice_take (by omega), slice_take (by omega), slice_take (by omega)]
  rfl

/-- Opening traps nowhere. -/
theorem ofBytes_eq (hb : b.length < UInt64.size) : ofBytes b = ofExcept (Reader.ofBytes b) := by
  have hends : footerSize + magic.length = 64 := by decide
  have hmagic : magic.length = 8 := by decide
  rw [ofBytes, Reader.ofBytes, Nat.add_comm magic.length]
  by_cases hsmall : b.length < footerSize + magic.length
  · rw [if_pos hsmall, if_pos hsmall]
    rfl
  rw [if_neg hsmall, if_neg hsmall]
  dsimp only
  rw [subtract_eq (by omega), pure_bind, between_end (by omega), pure_bind]
  by_cases hwrong : b.drop (b.length - magic.length) ≠ magic
  · rw [if_pos hwrong, if_pos hwrong]
    rfl
  obtain ⟨limit, hlimit⟩ : ∃ l, l = b.length - (footerSize + magic.length) := ⟨_, rfl⟩
  have htail : footerSize ≤ (b.drop limit).length := by
    rw [List.length_drop]
    omega
  have hsize : limit + footerSize - limit = footerSize := Nat.add_sub_cancel_left ..
  rw [if_neg hwrong, if_neg hwrong, subtract_eq (by omega), pure_bind, ← hlimit,
    add_eq (by omega), pure_bind, between_eq (by omega) (by omega), pure_bind, hsize,
    readFooter_eq htail, pure_bind, decode_footer htail]
  dsimp only
  rw [range?_eq (by omega), range?_eq (by omega), slice?, slice?]
  generalize footerIn (b.drop limit) = f
  by_cases hindex : f.indexOffset.toNat + f.indexLength.toNat ≤ limit
  swap
  · rw [if_neg hindex, if_neg hindex]
    rfl
  by_cases hproperties : f.propertiesOffset.toNat + f.propertiesLength.toNat ≤ limit
  swap
  · rw [if_pos hindex, if_pos hindex, if_neg hproperties, if_neg hproperties]
    rfl
  rw [if_pos hindex, if_pos hindex, if_pos hproperties, if_pos hproperties]
  dsimp only
  rw [between_eq (by omega) (by omega), pure_bind, Nat.add_sub_cancel_left]
  cases indexFormat.decode ((b.drop f.indexOffset.toNat).take f.indexLength.toNat) with
  | error e => rfl
  | ok index =>
    dsimp only
    rw [between_eq (by omega) (by omega), pure_bind, Nat.add_sub_cancel_left]
    cases Properties.format.decode
        ((b.drop f.propertiesOffset.toNat).take f.propertiesLength.toNat) with
    | error e => rfl
    | ok properties =>
      dsimp only
      split <;> rfl

/-! ## Walks -/

/-- What is left of a walk. -/
def Walk.cursor (r : Reader) (w : Walk) : Cursor := ⟨r.index.drop w.block, w.entries.drop w.entry⟩

/-- The next step of a walk traps nowhere, and is that of what is left of it. -/
theorem Walk.next_eq (hbytes : r.bytes.length < UInt64.size) (hindex : r.index.length < UInt64.size)
    (hentries : w.entries.length < UInt64.size) : ∃ w',
      w.next r = .ok (((w.cursor r).next r).1, w') ∧ w'.cursor r = ((w.cursor r).next r).2 ∧
      w'.entries.length < UInt64.size := by
  induction w using Walk.next.induct r with
  | case1 w hentry =>
    have hready : w.entries.drop w.entry = w.entries[w.entry] :: w.entries.drop (w.entry + 1) :=
      List.drop_eq_getElem_cons hentry
    rw [next, if_pos hentry, elementAt_eq hentry, pure_bind, add_eq (by omega), pure_bind, cursor,
      hready]
    exact ⟨_, rfl, rfl, hentries⟩
  | case2 w hentry hblock =>
    have hready : w.entries.drop w.entry = [] := List.drop_eq_nil_of_le (Nat.le_of_not_lt hentry)
    have hblocks : r.index.drop w.block = [] :=
      List.drop_eq_nil_of_le (List.getElem?_eq_none_iff.mp hblock)
    rw [next, if_neg hentry, cursor, hready, hblocks]
    split
    · refine ⟨w, rfl, ?_, hentries⟩
      rw [cursor, hready, hblocks]
      rfl
    · rename_i i hi
      cases hblock.symm.trans hi
  | case3 w hentry i hblock ih =>
    have hready : w.entries.drop w.entry = [] := List.drop_eq_nil_of_le (Nat.le_of_not_lt hentry)
    obtain ⟨hlt, hi⟩ := List.getElem?_eq_some_iff.mp hblock
    have hblocks : r.index.drop w.block = i :: r.index.drop (w.block + 1) := by
      rw [List.drop_eq_getElem_cons hlt, hi]
    have hcursor : (w.cursor r).next r = Cursor.advance r (i :: r.index.drop (w.block + 1)) := by
      rw [cursor, hready, hblocks]
      rfl
    rw [next, if_neg hentry, hcursor, Cursor.advance]
    split
    · rename_i hnone
      cases hblock.symm.trans hnone
    · rename_i i' hi'
      cases hblock.symm.trans hi'
      rw [add_eq (by omega), readBlock_eq hbytes]
      cases hread : r.readBlock i.handle with
      | error e =>
        refine ⟨{ w with block := r.index.length }, rfl, ?_, hentries⟩
        rw [cursor, hready, List.drop_length]
      | ok entries =>
        have hlength := Reader.length_readBlock hread
        obtain ⟨w', hnext, hw', hentries'⟩ := ih entries (by
          change entries.length < UInt64.size
          simp only [UInt32.size, UInt64.size] at *
          omega)
        have hrest : Walk.cursor r { block := w.block + 1, entries } =
            ⟨r.index.drop (w.block + 1), entries⟩ := rfl
        rw [hrest] at hnext hw'
        refine ⟨w', ?_, ?_, hentries'⟩
        · cases entries <;> exact hnext
        · cases entries <;> exact hw'

/-- The answer to one of the calls for the next entry, numbered from zero: all entries in turn, then
how reading them failed if it did, and then nothing. -/
def answerAt (es : List Entry) (failure : Option Error) (n : Nat) : Option (Except Error Entry) :=
  match es[n]? with
  | some e => some (.ok e)
  | none => if n = es.length then failure.map .error else none

theorem eq_nil_of_advance {index : List IndexEntry} {c : Cursor}
    (hnext : Cursor.advance r index = (none, c)) : c = ⟨[], []⟩ := by
  induction index with
  | nil => exact (Prod.mk.inj hnext).2.symm
  | cons i index ih =>
    rw [Cursor.advance] at hnext
    split at hnext
    · cases hnext
    · exact ih hnext
    · cases hnext

/-- A walk that is over stays over. -/
theorem yields_of_next {c c' : Cursor} (hnext : c.next r = (none, c')) : c'.Yields r [] none := by
  obtain ⟨blocks, _ | _⟩ := c
  · rw [eq_nil_of_advance hnext]
    exact .done rfl
  · cases hnext

/-- The first answer of a walk, and the others as those of what is left of it. -/
theorem yields_next {c : Cursor} {es : List Entry} {failure : Option Error}
    (h : c.Yields r es failure) : (c.next r).1 = answerAt es failure 0 ∧ ∃ es' failure',
      (c.next r).2.Yields r es' failure' ∧
      ∀ k, answerAt es failure (k + 1) = answerAt es' failure' k := by
  cases h with
  | done ended =>
    rw [ended]
    refine ⟨rfl, [], none, yields_of_next ended, fun k => ?_⟩
    cases k <;> rfl
  | failed fails ended =>
    rw [fails]
    refine ⟨rfl, [], none, .done (Prod.ext ended rfl), fun k => ?_⟩
    cases k <;> rfl
  | entry gives more =>
    rw [gives]
    refine ⟨rfl, _, _, more, fun k => ?_⟩
    simp only [answerAt, List.getElem?_cons_succ, List.length_cons, Nat.add_right_cancel_iff]

/-- However often the machine is asked, it answers, as the walk is said to go. -/
theorem Walk.answers_eq {es : List Entry} {failure : Option Error}
    (hbytes : r.bytes.length < UInt64.size) (hindex : r.index.length < UInt64.size)
    (hentries : w.entries.length < UInt64.size) (hyields : (w.cursor r).Yields r es failure) :
    w.answers r n = .ok ((List.range n).map (answerAt es failure)) := by
  induction n generalizing w es failure with
  | zero => rfl
  | succ n ih =>
    obtain ⟨w', hnext, hw', hentries'⟩ := w.next_eq hbytes hindex hentries
    obtain ⟨hfirst, es', failure', hyields', hlater⟩ := yields_next hyields
    rw [← hw'] at hyields'
    have hmore : answerAt es failure ∘ Nat.succ = answerAt es' failure' := funext hlater
    rw [answers, hnext, List.range_succ_eq_map, List.map_cons, List.map_map, hfirst, hmore]
    change (w'.answers r n >>= fun l => pure _) = _
    rw [ih hentries' hyields']
    rfl

/-- The entries that are read are those of verified blocks, in the order of the index, up to the
first that cannot be read. -/
theorem verified_entriesOf (r : Reader) (index : List IndexEntry) : ∃ blocks,
    (r.entriesOf index).1 = blocks.flatten ∧
      List.Forall₂ (fun i es => r.Verified i.handle es) (index.take blocks.length) blocks ∧
      match (r.entriesOf index).2 with
      | none => blocks.length = index.length
      | some e => ∃ i, index[blocks.length]? = some i ∧ r.readBlock i.handle = .error e := by
  induction index with
  | nil => exact ⟨[], rfl, .nil, rfl⟩
  | cons i index ih =>
    rw [Reader.entriesOf]
    cases hread : r.readBlock i.handle with
    | error e => exact ⟨[], rfl, .nil, i, rfl, hread⟩
    | ok es =>
      obtain ⟨blocks, hes, hverified, hend⟩ := ih
      refine ⟨es :: blocks, ?_, .cons (Reader.readBlock_eq_ok.mp hread) hverified, ?_⟩
      · rw [List.flatten_cons, ← hes]
      · dsimp only
        cases hfailure : (r.entriesOf index).2 with
        | none =>
          rw [hfailure] at hend
          exact congrArg Nat.succ hend
        | some e =>
          rw [hfailure] at hend
          exact hend

/-- Whatever the bytes of a file are, as long as a word tells their number: opening it traps nowhere
and answers as the reader does, be it with an error. Of a table that is opened, so many calls for
the next entry as one likes trap nowhere. They answer with the entries of the index's first blocks,
each verified before any of its entries is given; then, where a block cannot be read, once with the
error; and with nothing ever after. -/
theorem never_traps (hb : b.length < UInt64.size) :
    (ofBytes b).run = .ok (Reader.ofBytes b) ∧ ∀ r, Reader.ofBytes b = .ok r →
      (∀ n, Walk.answers r {} n =
        .ok ((List.range n).map (answerAt r.entries.1 r.entries.2))) ∧
      ∃ blocks, r.entries.1 = blocks.flatten ∧
        List.Forall₂ (fun i es => r.Verified i.handle es) (r.index.take blocks.length) blocks ∧
        match r.entries.2 with
        | none => blocks.length = r.index.length
        | some e => ∃ i, r.index[blocks.length]? = some i ∧
            (readBlock r i.handle).run = .ok (.error e) := by
  constructor
  · rw [ofBytes_eq hb]
    cases Reader.ofBytes b <;> rfl
  · intro r hopen
    obtain ⟨hbytes, hindex⟩ := Reader.of_ofBytes hopen
    rw [← hbytes] at hb
    have hlength : r.index.length < UInt64.size := by
      simp only [UInt32.size, UInt64.size] at *
      omega
    refine ⟨fun n => Walk.answers_eq hb hlength (by decide) r.yields_cursor, ?_⟩
    obtain ⟨blocks, hes, hverified, hend⟩ := verified_entriesOf r r.index
    refine ⟨blocks, hes, hverified, ?_⟩
    rw [Reader.entries]
    cases hfailure : (r.entriesOf r.index).2 with
    | none =>
      rw [hfailure] at hend
      exact hend
    | some e =>
      rw [hfailure] at hend
      obtain ⟨i, hi, herror⟩ := hend
      refine ⟨i, hi, ?_⟩
      rw [readBlock_eq hb, herror]
      rfl

end Lineage.SortedTable.Machine

namespace Lineage.Sample

open SortedTable

/-! ### A table whose index leads astray -/

/-- The index of a table of two blocks, of which the second is said to start at the last offset that
a word can tell. -/
def derailed : List IndexEntry :=
  (indexFrom 0 stocked).modify 1 fun i => { i with handle := { i.handle with offset := -1 } }

/-- The table with this index. -/
def derailedTable : Bytes := tableWith (indexFormat.write derailed) stocked

def derailedReader : Reader := ⟨derailedTable, derailed, propertiesOf stocked⟩

theorem checked_derailed :
    (indexFormat.decode (indexFormat.write derailed)).toOption = some derailed ∧
    derailedTable.length < UInt64.size - 1 ∧
    derailed = [⟨⟨[1], 5, .put⟩, ⟨0, (block (stock.take 1)).length.toUInt32⟩⟩,
      ⟨⟨[2], 9, .put⟩, ⟨-1, (block (stock.drop 1)).length.toUInt32⟩⟩] := by
  decide +kernel

theorem ofBytes_derailedTable : Reader.ofBytes derailedTable = .ok derailedReader :=
  ofBytes_tableWith short_stocked.1 (by decide) (by decide) (eq_ok_of_toOption checked_derailed.1)

/-- Where the second of two handles leads behind the end of the file, the first block is read. -/
theorem entriesOf_derailed {r : Reader} {es : List Entry} {k k' : InternalKey} {back : Bytes}
    {n : UInt32} (hbytes : r.bytes = [] ++ (block es ++ back))
    (hlength : r.bytes.length < UInt64.size - 1) (hblock : (block es).length < UInt32.size)
    (hfits : ∀ e ∈ es, Entry.Fits e) :
    r.entriesOf [⟨k, ⟨0, (block es).length.toUInt32⟩⟩, ⟨k', ⟨-1, n⟩⟩] =
      (es, some (.corrupt .blockOutOfBounds)) := by
  have hfirst := Reader.readBlock_mid hbytes (by omega) hblock hfits
  have hoffset : (-1 : UInt64).toNat = UInt64.size - 1 := rfl
  have hsecond : r.readBlock ⟨-1, n⟩ = .error (.corrupt .blockOutOfBounds) := by
    rw [Reader.readBlock, slice?, if_neg (by dsimp only; omega)]
    rfl
  rw [Reader.entriesOf, Reader.entriesOf]
  dsimp only
  rw [show (0 : UInt64) = ([] : Bytes).length.toUInt64 from rfl, hfirst, hsecond]
  dsimp only
  rw [List.append_nil]

theorem entries_derailedReader :
    derailedReader.entries = (stock.take 1, some (.corrupt .blockOutOfBounds)) := by
  have hbytes : derailedReader.bytes = [] ++ (block (stock.take 1) ++ (block (stock.drop 1) ++
      (indexFormat.write derailed ++ (propertyBytes stocked ++
        (Footer.format.write (footerOf stocked) ++ magic))))) := by
    change tableWith (indexFormat.write derailed) stocked = _
    rw [tableWith, stocked, List.flatMap_cons, List.flatMap_cons, List.flatMap_nil, List.append_nil,
      List.append_assoc, List.nil_append]
  change derailedReader.entriesOf derailed = _
  rw [checked_derailed.2.2]
  exact entriesOf_derailed hbytes checked_derailed.2.1
    (short_stocked.1.block _ List.mem_cons_self) (by decide)

/-- The machine gives the entry of the first block, the error, and then nothing. -/
theorem never_traps_derailed : (Machine.ofBytes derailedTable).run = .ok (.ok derailedReader) ∧
    Machine.Walk.answers derailedReader {} 4 =
      .ok [some (.ok (⟨[1], 5, .put⟩, List.replicate 60 7)),
        some (.error (.corrupt .blockOutOfBounds)), none, none] := by
  have hlength := Nat.lt_of_lt_of_le checked_derailed.2.1 (Nat.sub_le _ _)
  obtain ⟨hrun, hwalk⟩ := Machine.never_traps hlength
  rw [ofBytes_derailedTable] at hrun
  obtain ⟨hanswers, -⟩ := hwalk derailedReader ofBytes_derailedTable
  refine ⟨hrun, ?_⟩
  rw [hanswers, entries_derailedReader]
  rfl

end Lineage.Sample
