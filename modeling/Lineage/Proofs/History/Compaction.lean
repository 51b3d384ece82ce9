import Lineage.History.Error
import Lineage.Proofs.Wire.Faults

/-!
# Reading back compactions

A compaction is read back from its row (`decode_encode`), as long as each text, byte string and list
in it has a length that eight bytes can hold. One that was read from a row is such a compaction
(`fits_of_readRow`). Bytes that do not begin with the row of a compaction are refused, and the reason
that is given is one that they bear out (`decode_exactly`).
-/

namespace Lineage

open Wire (ShortList Lawful Faulty)

/-- The length of a text in bytes can be written down. -/
def ShortText (s : String) : Prop := ShortList (Bytes.ofText s)

structure FileInfo.Fits (i : FileInfo) : Prop where
  name : ShortText i.name
  first : ∀ b ∈ i.first, ShortList b
  last : ∀ b ∈ i.last, ShortList b
  family : ∀ s ∈ i.family, ShortText s

structure Compaction.Fits (c : Compaction) : Prop where
  inputs : ShortList c.inputs ∧ ∀ i ∈ c.inputs, i.Fits
  outputs : ShortList c.outputs ∧ ∀ i ∈ c.outputs, i.Fits
  reason : ∀ s ∈ c.reason, ShortText s

theorem FileInfo.lawful : Lawful FileInfo.format FileInfo.Fits := by
  have hbytes := Wire.lawful_bytes.optional
  have htext := Wire.lawful_text.optional
  have hparts := Wire.lawful_text.pair <| hbytes.pair <| hbytes.pair <| htext.pair <|
    Wire.lawful_uint64.optional.pair Wire.lawful_boolean
  refine (hparts.via (fun _ => rfl) fun _ => rfl).congr fun i => ⟨fun h => ?_, fun h => ?_⟩
  · exact ⟨h.1, h.2.1, h.2.2.1, h.2.2.2.1⟩
  · exact ⟨h.name, h.first, h.last, h.family, fun _ _ => trivial, trivial⟩

namespace Compaction

variable {c : Compaction} {b rest : Bytes}

theorem lawful : Lawful format Fits := by
  have hparts := Wire.lawful_uint64.pair <| Wire.lawful_uint64.pair <| FileInfo.lawful.list.pair <|
    FileInfo.lawful.list.pair Wire.lawful_text.optional
  refine (hparts.via (fun _ => rfl) fun _ => rfl).congr fun c => ⟨fun h => ?_, fun h => ?_⟩
  · exact ⟨h.2.2.1, h.2.2.2.1, h.2.2.2.2⟩
  · exact ⟨trivial, trivial, h.inputs, h.outputs, h.reason⟩

theorem decode_encode_append (h : c.Fits) : decode (c.encode ++ rest) = .ok c :=
  lawful.roundTrips.decode h

theorem decode_encode (h : c.Fits) : decode c.encode = .ok c := by
  rw [← List.append_nil c.encode, decode_encode_append h]

theorem readRow_encode (h : c.Fits) : History.readRow c.encode = .ok c := by
  rw [History.readRow, decode_encode h]
  rfl

/-- What can be read from a row can be written into one. -/
theorem fits_of_readRow (h : History.readRow b = .ok c) : c.Fits := by
  rw [History.readRow] at h
  cases hd : decode b with
  | error e =>
    rw [hd] at h
    cases h
  | ok c' =>
    rw [hd] at h
    cases h
    exact lawful.fitting.decode hd

/-- A compaction is read back from in front of any bytes; only what is written of it is read as it;
and all other bytes are refused, however many files or bytes they claim to hold, for a reason that
they bear out. Lengths that eight bytes cannot hold do not fit. -/
theorem decode_exactly :
    (∀ (c : Compaction) (rest : Bytes), c.Fits → decode (c.encode ++ rest) = .ok c) ∧
    (∀ (b : Bytes) (c : Compaction), decode b = .ok c → c.Fits ∧ c.encode <+: b) ∧
    ∀ b : Bytes, (∀ c : Compaction, c.Fits → ¬ c.encode <+: b) →
      ∃ e, decode b = .error e ∧ Faulty b e := by
  refine ⟨fun c rest hc => decode_encode_append hc, fun b c h => ?_, fun b hother => ?_⟩
  · exact ⟨lawful.fitting.decode h, lawful.exact.prefix_of_decode h⟩
  · cases hd : decode b with
    | ok c =>
      exact absurd (lawful.exact.prefix_of_decode hd) (hother c (lawful.fitting.decode hd))
    | error e => exact ⟨e, rfl, lawful.blames.decode hd⟩

end Compaction

/-! ## A compaction of a stripped file, and bytes that are none -/

namespace Sample

/-- A file of which all is known was replaced by one that is known by its name. -/
def detailed : Compaction where
  sequence := 42
  time := 1700000000000
  inputs := [{
    name := "000011"
    first := some (Bytes.ofText "/vol/a")
    last := some (Bytes.ofText "/vol/z")
    family := some "keyTable"
    keys := some 7
    stripped := true }]
  outputs := [{ name := "000015" }]
  reason := some "größer"

/-- The bytes of a row that claims almost as many files as eight bytes can count. -/
def boasting : Bytes := List.replicate 16 0 ++ List.replicate 8 255 ++ [1]

theorem fits_detailed : detailed.Fits := by
  have hshort : ∀ s ∈ ["000011", "000015", "keyTable", "größer"], ShortText s := by
    unfold ShortText ShortList
    decide +kernel
  have hkeys : ∀ b ∈ [Bytes.ofText "/vol/a", Bytes.ofText "/vol/z"], ShortList b := by
    unfold ShortList
    decide +kernel
  simp only [List.forall_mem_cons] at hshort hkeys
  obtain ⟨hin, hout, hfamily, hreason, -⟩ := hshort
  obtain ⟨hfirst, hlast, -⟩ := hkeys
  refine ⟨⟨(by decide : 1 < UInt64.size), List.forall_mem_singleton.mpr ?_⟩,
    ⟨(by decide : 1 < UInt64.size), List.forall_mem_singleton.mpr ?_⟩, ?_⟩
  · exact ⟨hin, by rintro _ ⟨⟩; exact hfirst, by rintro _ ⟨⟩; exact hlast,
      by rintro _ ⟨⟩; exact hfamily⟩
  · exact ⟨hout, nofun, nofun, nofun⟩
  · rintro _ ⟨⟩
    exact hreason

theorem decode_detailed :
    detailed.Fits ∧ Compaction.decode (detailed.encode ++ [1, 2, 3]) = .ok detailed ∧
    detailed.encode <+: detailed.encode ++ [1, 2, 3] ∧
    Compaction.decode boasting = .error .unexpectedEnd ∧
    (∀ c : Compaction, c.Fits → ¬ c.encode <+: boasting) ∧
    ∃ e, Compaction.decode boasting = .error e ∧ Faulty boasting e := by
  have hread := Compaction.decode_exactly.1 detailed [1, 2, 3] fits_detailed
  have hrefused : Compaction.decode boasting = .error .unexpectedEnd := by
    rfl
  have hnone : ∀ c : Compaction, c.Fits → ¬ c.encode <+: boasting := by
    rintro c hc ⟨rest, hrest⟩
    have hok := Compaction.decode_exactly.1 c rest hc
    rw [hrest, hrefused] at hok
    cases hok
  exact ⟨fits_detailed, hread, (Compaction.decode_exactly.2.1 _ _ hread).2, hrefused, hnone,
    Compaction.decode_exactly.2.2 boasting hnone⟩

end Sample

end Lineage
