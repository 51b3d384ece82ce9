import Lineage.Proofs.Text.Utf8
import Lineage.Wire

/-!
# Reading back what a layout writes

`RoundTrips f fits` says that a layout reads back every value that fits it, and leaves the bytes
behind it. Lengths are written in eight bytes, so a byte string or list fits if its length is a
word; what is put together fits if its parts do. `Exact f` says that a layout reads nothing but what
it would write, `Fitting f fits` that it reads nothing but what fits.
-/

namespace Lineage.Wire

variable {α β : Type} {f : Format α} {g : Format β} {fits : α → Prop} {fits' : β → Prop}
  {b b' rest : Bytes} {a : α}

/-- Values that fit are read back from in front of other bytes. -/
def RoundTrips (f : Format α) (fits : α → Prop) : Prop :=
  ∀ a, fits a → ∀ rest, f.read.run (f.write a ++ rest) = .ok (a, rest)

/-- The length of something that is to be written. -/
def ShortList (l : List α) : Prop := l.length < UInt64.size

theorem run_bind_ok {x : Reader α} {k : α → Reader β} (h : x.run b = .ok (a, b')) :
    (x >>= k).run b = (k a).run b' := by
  rw [StateT.run_bind, h]
  rfl

theorem run_map_ok {x : Reader α} {k : α → β} (h : x.run b = .ok (a, b')) :
    (k <$> x).run b = .ok (k a, b') := by
  rw [StateT.run_map, h]
  rfl

theorem RoundTrips.decode (h : RoundTrips f fits) (ha : fits a) :
    f.decode (f.write a ++ rest) = .ok a := by
  rw [Format.decode, h a ha rest]
  rfl

theorem exists_of_decode (h : f.decode b = .ok a) : ∃ rest, f.read.run b = .ok (a, rest) := by
  rw [Format.decode] at h
  cases hr : f.read.run b with
  | error e =>
    rw [hr] at h
    cases h
  | ok p =>
    rw [hr] at h
    cases h
    exact ⟨p.2, rfl⟩

theorem RoundTrips.mono {fits' : α → Prop} (h : RoundTrips f fits) (hf : ∀ a, fits' a → fits a) :
    RoundTrips f fits' :=
  fun a ha rest => h a (hf a ha) rest

theorem run_take {n : Nat} {short : Error} (h : b.length = n) :
    (take n short).run (b ++ rest) = .ok (b, rest) := by
  subst h
  have hle : b.length ≤ (b ++ rest).length := by
    rw [List.length_append]
    exact Nat.le_add_right ..
  change (if b.length ≤ (b ++ rest).length then
    Except.ok ((b ++ rest).take b.length, (b ++ rest).drop b.length) else .error short) = _
  rw [if_pos hle, List.take_left, List.drop_left]

/-! ## Numbers -/

theorem roundTrips_uint32 : RoundTrips uint32 fun _ => True := by
  intro n _ rest
  change (Bytes.toUInt32 <$> take 4 Error.unexpectedEnd).run (Bytes.ofUInt32 n ++ rest) = _
  rw [run_map_ok (run_take (Bytes.length_ofUInt32 n)), Bytes.toUInt32_ofUInt32]

theorem roundTrips_uint64 : RoundTrips uint64 fun _ => True := by
  intro n _ rest
  change (Bytes.toUInt64 <$> take 8 Error.unexpectedEnd).run (Bytes.ofUInt64 n ++ rest) = _
  rw [run_map_ok (run_take (Bytes.length_ofUInt64 n)), Bytes.toUInt64_ofUInt64]

/-! ## Parts of records -/

theorem roundTrips_boolean : RoundTrips boolean fun _ => True := by
  intro v _ rest
  cases v <;> rfl

theorem toNat_length {l : List α} (h : ShortList l) : l.length.toUInt64.toNat = l.length :=
  UInt64.toNat_ofNat_of_lt' h

theorem roundTrips_bytes : RoundTrips bytes ShortList := by
  intro v hv rest
  change (uint64.read >>= fun n => take n.toNat .lengthPastEnd).run
    ((uint64.write v.length.toUInt64 ++ v) ++ rest) = _
  rw [List.append_assoc, run_bind_ok (roundTrips_uint64 _ trivial _), toNat_length hv]
  exact run_take rfl

theorem roundTrips_text : RoundTrips text fun s => ShortList (Bytes.ofText s) := by
  intro s hs rest
  dsimp only [text]
  rw [run_bind_ok (roundTrips_bytes _ hs _), Utf8.decode_ofText]
  rfl

/-! ## Composition -/

theorem roundTrips_optional (h : RoundTrips f fits) :
    RoundTrips (optional f) fun o => ∀ a ∈ o, fits a := by
  intro o ho rest
  cases o with
  | none => rfl
  | some a =>
    change (some <$> f.read).run (f.write a ++ rest) = _
    exact run_map_ok (h a (ho a rfl) rest)

theorem run_readMany (h : RoundTrips f fits) {l : List α} (hl : ∀ a ∈ l, fits a) :
    (readMany f l.length).run (l.flatMap f.write ++ rest) = .ok (l, rest) := by
  induction l with
  | nil => rfl
  | cons a l ih =>
    rw [List.forall_mem_cons] at hl
    rw [List.length_cons, readMany, List.flatMap_cons, List.append_assoc,
      run_bind_ok (h a hl.1 _), run_bind_ok (ih hl.2)]
    rfl

theorem roundTrips_list (h : RoundTrips f fits) :
    RoundTrips (list f) fun l => ShortList l ∧ ∀ a ∈ l, fits a := by
  intro l hl rest
  change (uint64.read >>= fun n => readMany f n.toNat).run
    ((uint64.write l.length.toUInt64 ++ l.flatMap f.write) ++ rest) = _
  rw [List.append_assoc, run_bind_ok (roundTrips_uint64 _ trivial _), toNat_length hl.1]
  exact run_readMany h hl.2

theorem roundTrips_pair (h : RoundTrips f fits) (h' : RoundTrips g fits') :
    RoundTrips (pair f g) fun p => fits p.1 ∧ fits' p.2 := by
  intro p hp rest
  change (f.read >>= fun a => Prod.mk a <$> g.read).run
    ((f.write p.1 ++ g.write p.2) ++ rest) = _
  rw [List.append_assoc, run_bind_ok (h p.1 hp.1 _)]
  exact run_map_ok (h' p.2 hp.2 _)

theorem roundTrips_via {make : α → β} {parts : β → α} (h : RoundTrips f fits)
    (hmake : ∀ b, make (parts b) = b) : RoundTrips (via f make parts) fun b => fits (parts b) := by
  intro b hb rest
  change (make <$> f.read).run (f.write (parts b) ++ rest) = _
  rw [run_map_ok (h _ hb rest), hmake]

/-! ## Exact reading -/

/-- What a layout reads, it would write. -/
def Exact (f : Format α) : Prop :=
  ∀ b a rest, f.read.run b = .ok (a, rest) → b = f.write a ++ rest

theorem Exact.prefix_of_decode (h : Exact f) (hd : f.decode b = .ok a) : f.write a <+: b := by
  obtain ⟨rest, hread⟩ := exists_of_decode hd
  exact ⟨rest, (h b a rest hread).symm⟩

theorem run_bind_eq_ok {x : Reader α} {k : α → Reader β} {c : β} :
    (x >>= k).run b = .ok (c, rest) ↔
      ∃ a b', x.run b = .ok (a, b') ∧ (k a).run b' = .ok (c, rest) := by
  rw [StateT.run_bind]
  cases x.run b with
  | error e => exact ⟨nofun, nofun⟩
  | ok p =>
    constructor
    · exact fun h => ⟨p.1, p.2, rfl, h⟩
    · rintro ⟨_, _, ⟨⟩, h⟩
      exact h

theorem run_map_eq_ok {x : Reader α} {k : α → β} {c : β} :
    (k <$> x).run b = .ok (c, rest) ↔ ∃ a, x.run b = .ok (a, rest) ∧ k a = c := by
  rw [StateT.run_map]
  cases x.run b with
  | error e => exact ⟨nofun, nofun⟩
  | ok p =>
    constructor
    · rintro ⟨⟩
      exact ⟨p.1, rfl, rfl⟩
    · rintro ⟨_, ⟨⟩, rfl⟩
      rfl

theorem run_take_eq_ok {n : Nat} {short : Error} {v : Bytes}
    (h : (take n short).run b = .ok (v, rest)) : v.length = n ∧ b = v ++ rest := by
  change (if n ≤ b.length then Except.ok (b.take n, b.drop n) else .error short) = _ at h
  split at h
  · cases h
    exact ⟨List.length_take_of_le ‹_›, (List.take_append_drop n b).symm⟩
  · cases h

theorem exact_uint8 : Exact uint8 := by
  intro b n rest h
  cases b with
  | nil => cases h
  | cons x b =>
    cases h
    rfl

theorem exact_uint32 : Exact uint32 := by
  intro b n rest h
  obtain ⟨v, hv, rfl⟩ := run_map_eq_ok.mp h
  obtain ⟨hlength, rfl⟩ := run_take_eq_ok hv
  exact congrArg (· ++ rest) (Bytes.ofUInt32_toUInt32 hlength).symm

theorem exact_uint64 : Exact uint64 := by
  intro b n rest h
  obtain ⟨v, hv, rfl⟩ := run_map_eq_ok.mp h
  obtain ⟨hlength, rfl⟩ := run_take_eq_ok hv
  exact congrArg (· ++ rest) (Bytes.ofUInt64_toUInt64 hlength).symm

theorem exact_bytes : Exact bytes := by
  intro b v rest h
  obtain ⟨n, b', hn, hv⟩ := run_bind_eq_ok.mp h
  obtain ⟨hlength, rfl⟩ := run_take_eq_ok hv
  have hword : v.length.toUInt64 = n := by
    rw [hlength]
    exact UInt64.ofNat_toNat
  rw [exact_uint64 b n _ hn, ← List.append_assoc, ← hword]
  rfl

theorem exact_boolean : Exact boolean := by
  intro b v rest h
  obtain ⟨n, b', hn, hv⟩ := run_bind_eq_ok.mp h
  rw [exact_uint8 b n b' hn]
  split at hv <;> cases hv <;> rfl

theorem exact_text : Exact text := by
  intro b s rest h
  obtain ⟨v, b', hv, hs⟩ := run_bind_eq_ok.mp h
  cases hd : Utf8.decode v with
  | error e =>
    rw [hd] at hs
    cases hs
  | ok s' =>
    rw [hd] at hs
    cases hs
    rw [exact_bytes b v _ hv, ← Utf8.ofText_of_decode hd]
    rfl

theorem exact_optional (h : Exact f) : Exact (optional f) := by
  intro b o rest hr
  obtain ⟨n, b', hn, hr⟩ := run_bind_eq_ok.mp hr
  rw [exact_uint8 b n b' hn]
  split at hr
  · cases hr
    rfl
  · obtain ⟨a, hread, rfl⟩ := run_map_eq_ok.mp hr
    rw [h b' a rest hread]
    rfl
  · cases hr

theorem exact_readMany (h : Exact f) {n : Nat} {l : List α}
    (hr : (readMany f n).run b = .ok (l, rest)) : l.length = n ∧ b = l.flatMap f.write ++ rest := by
  induction n generalizing b l with
  | zero =>
    cases hr
    exact ⟨rfl, rfl⟩
  | succ n ih =>
    obtain ⟨a, b', ha, hr⟩ := run_bind_eq_ok.mp hr
    obtain ⟨more, hmore, rfl⟩ := run_map_eq_ok.mp hr
    obtain ⟨hlength, hb⟩ := ih hmore
    rw [h b a b' ha, hb, List.flatMap_cons, List.append_assoc]
    exact ⟨congrArg (· + 1) hlength, rfl⟩

theorem exact_list (h : Exact f) : Exact (list f) := by
  intro b l rest hr
  obtain ⟨n, b', hn, hr⟩ := run_bind_eq_ok.mp hr
  obtain ⟨hlength, hb⟩ := exact_readMany h hr
  have hword : l.length.toUInt64 = n := by
    rw [hlength]
    exact UInt64.ofNat_toNat
  rw [exact_uint64 b n b' hn, hb, ← hword, ← List.append_assoc]
  rfl

theorem exact_pair (h : Exact f) (h' : Exact g) : Exact (pair f g) := by
  intro b p rest hr
  obtain ⟨a, b', ha, hr⟩ := run_bind_eq_ok.mp hr
  obtain ⟨c, hc, rfl⟩ := run_map_eq_ok.mp hr
  rw [h b a b' ha, h' b' c rest hc, ← List.append_assoc]
  rfl

theorem exact_via {make : α → β} {parts : β → α} (h : Exact f) (hparts : ∀ a, parts (make a) = a) :
    Exact (via f make parts) := by
  intro b c rest hr
  obtain ⟨a, ha, rfl⟩ := run_map_eq_ok.mp hr
  rw [h b a rest ha]
  exact congrArg (fun a => f.write a ++ rest) (hparts a).symm

/-! ## What is read fits -/

/-- A layout reads nothing but what would fit it. -/
def Fitting (f : Format α) (fits : α → Prop) : Prop :=
  ∀ b a rest, f.read.run b = .ok (a, rest) → fits a

theorem Fitting.mono {fits' : α → Prop} (h : Fitting f fits) (hf : ∀ a, fits a → fits' a) :
    Fitting f fits' :=
  fun b a rest hr => hf a (h b a rest hr)

theorem Fitting.decode (h : Fitting f fits) (hd : f.decode b = .ok a) : fits a := by
  obtain ⟨rest, hread⟩ := exists_of_decode hd
  exact h b a rest hread

theorem fitting_true : Fitting f fun _ => True := fun _ _ _ _ => trivial

theorem fitting_bytes : Fitting bytes ShortList := by
  intro b v rest h
  obtain ⟨n, b', -, hv⟩ := run_bind_eq_ok.mp h
  rw [ShortList, (run_take_eq_ok hv).1]
  exact n.toNat_lt

theorem fitting_text : Fitting text fun s => ShortList (Bytes.ofText s) := by
  intro b s rest h
  obtain ⟨v, b', hv, hs⟩ := run_bind_eq_ok.mp h
  cases hd : Utf8.decode v with
  | error e =>
    rw [hd] at hs
    cases hs
  | ok s' =>
    rw [hd] at hs
    cases hs
    rw [Utf8.ofText_of_decode hd]
    exact fitting_bytes b v _ hv

theorem fitting_optional (h : Fitting f fits) :
    Fitting (optional f) fun o => ∀ a ∈ o, fits a := by
  intro b o rest hr a ha
  obtain ⟨n, b', -, hr⟩ := run_bind_eq_ok.mp hr
  split at hr
  · cases hr
    cases ha
  · obtain ⟨a', hread, he⟩ := run_map_eq_ok.mp hr
    subst he
    cases ha
    exact h b' a rest hread
  · cases hr

theorem fitting_readMany (h : Fitting f fits) {n : Nat} {l : List α}
    (hr : (readMany f n).run b = .ok (l, rest)) : l.length = n ∧ ∀ a ∈ l, fits a := by
  induction n generalizing b l with
  | zero =>
    cases hr
    exact ⟨rfl, fun a ha => absurd ha List.not_mem_nil⟩
  | succ n ih =>
    obtain ⟨a, b', ha, hr⟩ := run_bind_eq_ok.mp hr
    obtain ⟨more, hmore, rfl⟩ := run_map_eq_ok.mp hr
    obtain ⟨hlength, hall⟩ := ih hmore
    exact ⟨congrArg (· + 1) hlength, List.forall_mem_cons.mpr ⟨h b a _ ha, hall⟩⟩

theorem fitting_list (h : Fitting f fits) :
    Fitting (list f) fun l => ShortList l ∧ ∀ a ∈ l, fits a := by
  intro b l rest hr
  obtain ⟨n, b', -, hr⟩ := run_bind_eq_ok.mp hr
  obtain ⟨hlength, hall⟩ := fitting_readMany h hr
  rw [ShortList, hlength]
  exact ⟨n.toNat_lt, hall⟩

theorem fitting_pair (h : Fitting f fits) (h' : Fitting g fits') :
    Fitting (pair f g) fun p => fits p.1 ∧ fits' p.2 := by
  intro b p rest hr
  obtain ⟨a, b', ha, hr⟩ := run_bind_eq_ok.mp hr
  obtain ⟨c, hc, rfl⟩ := run_map_eq_ok.mp hr
  exact ⟨h b a b' ha, h' b' c rest hc⟩

theorem fitting_via {make : α → β} {parts : β → α} (h : Fitting f fits)
    (hmake : ∀ a, fits a → fits' (make a)) : Fitting (via f make parts) fits' := by
  intro b c rest hr
  obtain ⟨a, ha, rfl⟩ := run_map_eq_ok.mp hr
  exact hmake a (h b a rest ha)

end Lineage.Wire
