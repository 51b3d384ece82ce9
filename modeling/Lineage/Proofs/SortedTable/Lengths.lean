import Lineage.Proofs.SortedTable.Stripped

/-!
# How much can be read

Whatever is read takes bytes: a layout takes at least a number of them off the front
(`Wire.Takes`), and so there are no more index entries, block entries and bytes in values than there
are bytes that a length field can tell of (`Reader.of_ofBytes`, `Reader.length_entries`).
-/

namespace Lineage.Wire

variable {α β : Type} {f : Format α} {g : Format β} {m n : Nat}

/-- Reading takes no less than so many bytes off the front. -/
def Takes (f : Format α) (n : Nat) : Prop :=
  ∀ b a rest, f.read.run b = .ok (a, rest) → n + rest.length ≤ b.length

theorem takes_uint32 : Takes uint32 4 := by
  intro b v rest h
  rw [exact_uint32 b v rest h, List.length_append]
  exact Nat.add_le_add_right (Nat.le_of_eq (Bytes.length_ofUInt32 v).symm) _

theorem takes_uint64 : Takes uint64 8 := by
  intro b v rest h
  rw [exact_uint64 b v rest h, List.length_append]
  exact Nat.add_le_add_right (Nat.le_of_eq (Bytes.length_ofUInt64 v).symm) _

theorem takes_bytes : Takes bytes 8 := by
  intro b v rest h
  have hlength : 8 ≤ (bytes.write v).length := by
    change 8 ≤ (Bytes.ofUInt64 v.length.toUInt64 ++ v).length
    rw [List.length_append, Bytes.length_ofUInt64]
    exact Nat.le_add_right 8 _
  rw [exact_bytes b v rest h, List.length_append]
  exact Nat.add_le_add_right hlength _

theorem takes_pair (h : Takes f m) (h' : Takes g n) : Takes (pair f g) (m + n) := by
  intro b p rest hread
  obtain ⟨a, b₁, hf, hread⟩ := run_bind_eq_ok.mp hread
  obtain ⟨c, hg, -⟩ := run_map_eq_ok.mp hread
  have := h b a b₁ hf
  have := h' b₁ c rest hg
  omega

theorem takes_via {make : α → β} {parts : β → α} (h : Takes f n) : Takes (via f make parts) n := by
  intro b a rest hread
  obtain ⟨c, hf, -⟩ := run_map_eq_ok.mp hread
  exact h b c rest hf

theorem length_readMany (h : Takes f n) {b rest : Bytes} {l : List α}
    (hread : (readMany f m).run b = .ok (l, rest)) : n * l.length + rest.length ≤ b.length := by
  induction m generalizing b l with
  | zero =>
    cases hread
    exact Nat.le_of_eq (Nat.zero_add _)
  | succ m ih =>
    obtain ⟨a, b₁, hf, hread⟩ := run_bind_eq_ok.mp hread
    obtain ⟨l', b₂, hmore, hread⟩ := run_bind_eq_ok.mp hread
    cases hread
    have := h b a b₁ hf
    have := ih hmore
    rw [List.length_cons, Nat.mul_succ]
    omega

theorem length_list (h : Takes f n) {b rest : Bytes} {l : List α}
    (hread : (list f).read.run b = .ok (l, rest)) : n * l.length + 8 ≤ b.length := by
  obtain ⟨m, b₁, hm, hread⟩ := run_bind_eq_ok.mp hread
  have := takes_uint64 b m b₁ hm
  have := length_readMany h hread
  omega

end Lineage.Wire

namespace Lineage.SortedTable

variable {b p : Bytes} {r : Reader} {n : Nat} {h : Handle} {es : List Entry}
  {index : List IndexEntry}

/-! ## Indices -/

theorem takes_kind : Wire.Takes kindFormat 4 := by
  intro b k rest hread
  obtain ⟨code, b₁, hcode, hread⟩ := Wire.run_bind_eq_ok.mp hread
  have hrest : b₁ = rest := by
    split at hread
    · cases hread
      rfl
    · cases hread
      rfl
    · cases hread
  exact hrest ▸ Wire.takes_uint32 b code b₁ hcode

/-- An index entry takes no less than 32 bytes. -/
theorem IndexEntry.takes : Wire.Takes format 32 :=
  Wire.takes_via <| Wire.takes_pair (n := 24) Wire.takes_bytes <|
    Wire.takes_pair (n := 16) Wire.takes_uint64 <| Wire.takes_pair (n := 12) takes_kind <|
    Wire.takes_pair Wire.takes_uint64 Wire.takes_uint32

theorem length_slice? {offset length limit : Nat} {s : Bytes}
    (hs : slice? b offset length limit = some s) : s.length ≤ length := by
  rw [slice?] at hs
  split at hs
  · rw [← Option.some.inj hs]
    exact List.length_take_le _ _
  · cases hs

theorem length_of_slice? {offset length : Nat} {s : Bytes}
    (hs : slice? b offset length b.length = some s) : s.length = length := by
  rw [slice?] at hs
  split at hs
  · rw [← Option.some.inj hs, List.length_take, List.length_drop]
    omega
  · cases hs

namespace Reader

/-- A table has its file's bytes and not more index entries than fit where the index is. -/
theorem of_ofBytes (hopen : ofBytes b = .ok r) :
    r.bytes = b ∧ 32 * r.index.length < UInt32.size := by
  rw [ofBytes] at hopen
  simp only [corrupt, bind, Except.bind, pure, Except.pure] at hopen
  split at hopen
  · cases hopen
  split at hopen
  · cases hopen
  split at hopen
  swap
  · cases hopen
  rename_i footer _
  split at hopen
  swap
  · cases hopen
  rename_i bytes hslice
  split at hopen
  swap
  · cases hopen
  split at hopen
  swap
  · cases hopen
  rename_i index hindex
  split at hopen
  swap
  · cases hopen
  split at hopen
  · cases hopen
  cases hopen
  refine ⟨rfl, ?_⟩
  obtain ⟨rest, hread⟩ := Wire.exists_of_decode hindex
  have hlength := Wire.length_list IndexEntry.takes hread
  have hbytes := length_slice? hslice
  have hword : footer.indexLength.toNat < UInt32.size := footer.indexLength.toNat_lt
  dsimp only
  omega

end Reader

/-! ## Blocks -/

/-- How many bytes the values of some entries have. -/
def valueBytes (es : List Entry) : Nat := (es.flatMap Prod.snd).length

theorem valueBytes_append {es' : List Entry} :
    valueBytes (es ++ es') = valueBytes es + valueBytes es' := by
  rw [valueBytes, List.flatMap_append, List.length_append]
  rfl

namespace Reader

theorem four_le_of_readNumber (hread : readNumber b = .ok n) : 4 ≤ b.length ∧ n < UInt32.size := by
  rw [readNumber] at hread
  split at hread
  · cases hread
  · rename_i hlong
    cases hread
    refine ⟨Nat.le_of_not_lt hlong, ?_⟩
    have hbytes := Bytes.toNat_lt (b.take 4)
    rwa [List.length_take_of_le (Nat.le_of_not_lt hlong)] at hbytes

/-- An entry takes 17 bytes and those of its key and its value. -/
theorem length_readEntries (hread : readEntries n p = .ok es) :
    17 * es.length + valueBytes es ≤ p.length := by
  induction n generalizing p es with
  | zero =>
    cases hread
    exact Nat.zero_le _
  | succ n ih =>
    rw [readEntries] at hread
    obtain ⟨⟨k, used⟩, hkey, hread⟩ := except_bind_eq_ok.mp hread
    obtain ⟨length, hlength, hread⟩ := except_bind_eq_ok.mp hread
    dsimp only at hread
    split at hread
    · cases hread
    · rename_i hlong
      obtain ⟨more, hmore, hread⟩ := except_bind_eq_ok.mp hread
      cases hread
      have hused := InternalKey.used_of_decode (except_mapError_eq_ok.mp hkey)
      have hnumber := four_le_of_readNumber hlength
      have hrest := ih hmore
      simp only [List.length_drop, List.length_cons, valueBytes, List.flatMap_cons,
        List.length_append, List.length_take] at *
      omega

theorem length_readPayload (hread : readPayload p = .ok es) :
    17 * es.length + valueBytes es + 4 ≤ p.length := by
  obtain ⟨n, hn, hread⟩ := except_bind_eq_ok.mp hread
  have hnumber := four_le_of_readNumber hn
  have hentries := length_readEntries hread
  rw [List.length_drop] at hentries
  omega

/-- A handle leads to a block with some entries, and the block's checksum and its hash agree with
it. -/
def Verified (r : Reader) (h : Handle) (es : List Entry) : Prop :=
  ∃ p, slice? r.bytes h.offset.toNat h.length.toNat r.bytes.length =
      some (p ++ (Bytes.ofUInt32 (Crc32c.checksum p) ++ Blake3.hash p)) ∧
    readPayload p = .ok es

/-- Entries are read of verified blocks only. -/
theorem readBlock_eq_ok : r.readBlock h = .ok es ↔ r.Verified h es := by
  constructor
  · intro hread
    rw [readBlock] at hread
    split at hread
    swap
    · cases hread
    rename_i block hslice
    have hlength := length_of_slice? hslice
    dsimp only at hread
    split at hread
    · cases hread
    rename_i hlong
    split at hread
    · cases hread
    rename_i hsum
    split at hread
    · cases hread
    rename_i hhash
    refine ⟨block.take (block.length - trailerSize), ?_, hread⟩
    have hfour : ((block.drop (block.length - trailerSize)).take 4).length = 4 := by
      rw [List.length_take, List.length_drop, trailerSize]
      rw [trailerSize] at hlong
      omega
    rw [hslice, not_not.mp hsum, not_not.mp hhash, Bytes.ofUInt32_toUInt32 hfour,
      List.take_append_drop, List.take_append_drop]
  · rintro ⟨p, hslice, hread⟩
    have hlength := length_of_slice? hslice
    have hlong := length_readPayload hread
    rw [List.length_append, List.length_append, Bytes.length_ofUInt32, length_hash] at hlength
    have hbefore : (p ++ (Bytes.ofUInt32 (Crc32c.checksum p) ++ Blake3.hash p)).length -
        trailerSize = p.length := by
      rw [List.length_append, List.length_append, Bytes.length_ofUInt32, length_hash]
      exact Nat.add_sub_cancel ..
    have hnot : ¬ h.length.toNat ≤ trailerSize := by
      rw [← hlength, trailerSize, rootSize]
      omega
    rw [readBlock, hslice]
    dsimp only
    rw [if_neg hnot, hbefore, List.take_left, List.drop_left,
      List.take_left' (Bytes.length_ofUInt32 _), List.drop_left' (Bytes.length_ofUInt32 _),
      Bytes.toUInt32_ofUInt32]
    simp only [ne_eq, not_true_eq_false, if_false]
    exact hread

theorem length_readBlock (hread : r.readBlock h = .ok es) :
    17 * es.length + valueBytes es ≤ UInt32.size := by
  obtain ⟨p, hslice, hread⟩ := readBlock_eq_ok.mp hread
  have hlength := length_of_slice? hslice
  have hword : h.length.toNat < UInt32.size := h.length.toNat_lt
  have hlong := length_readPayload hread
  rw [List.length_append] at hlength
  omega

/-! ## Tables -/

end Reader

end Lineage.SortedTable
