import Lineage.Proofs.Wire

/-!
# Why bytes are refused

A layout that refuses bytes gives a reason. `Faulty b e` says that the bytes bear the reason out: a
length, a tag or a text that they hold is not as it should be. `Blames f` says that the layout gives
no other reasons. `Lawful f fits` gathers all that is known of a layout, and is kept when layouts are
put together.
-/

namespace Lineage.Wire

variable {α β : Type} {f : Format α} {g : Format β} {fits fits' : α → Prop} {fits₂ : β → Prop}
  {x : Reader α} {k : α → Reader β} {b b' rest : Bytes} {a : α} {e : Error}

/-- What is wrong with bytes that are refused for the given reason. -/
inductive Faulty (b : Bytes) : Error → Prop where
  | unexpectedEnd : Faulty b .unexpectedEnd
  | lengthPastEnd {n : UInt64} {rest : Bytes} (claimed : Bytes.ofUInt64 n ++ rest <:+ b)
      (short : rest.length < n.toNat) : Faulty b .lengthPastEnd
  | boolean {n : UInt8} (found : n ∈ b) (zero : n ≠ 0) (one : n ≠ 1) : Faulty b (.boolean n)
  | option {n : UInt8} (found : n ∈ b) (zero : n ≠ 0) (one : n ≠ 1) : Faulty b (.option n)
  | text {v : Bytes} {e : Utf8.Error} (found : v <:+: b) (bad : Utf8.decode v = .error e) :
      Faulty b (.text e)

theorem Faulty.of_suffix (h : Faulty b' e) (hs : b' <:+ b) : Faulty b e := by
  cases h with
  | unexpectedEnd => exact .unexpectedEnd
  | lengthPastEnd claimed short => exact .lengthPastEnd (claimed.trans hs) short
  | boolean found zero one => exact .boolean (hs.mem found) zero one
  | option found zero one => exact .option (hs.mem found) zero one
  | text found bad => exact .text (found.trans hs.isInfix) bad

/-- Whatever a layout refuses is faulty in the way it says. -/
def Blames (f : Format α) : Prop := ∀ b e, f.read.run b = .error e → Faulty b e

theorem run_bind_eq_error : (x >>= k).run b = .error e ↔
    x.run b = .error e ∨ ∃ a b', x.run b = .ok (a, b') ∧ (k a).run b' = .error e := by
  rw [StateT.run_bind]
  cases x.run b with
  | error e' =>
    constructor
    · rintro ⟨⟩
      exact .inl rfl
    · rintro (⟨⟨⟩⟩ | ⟨_, _, ⟨⟩, _⟩)
      rfl
  | ok p =>
    constructor
    · exact fun h => .inr ⟨p.1, p.2, rfl, h⟩
    · rintro (⟨⟨⟩⟩ | ⟨_, _, ⟨⟩, h⟩)
      exact h

theorem run_map_eq_error {k : α → β} : (k <$> x).run b = .error e ↔ x.run b = .error e := by
  rw [StateT.run_map]
  cases x.run b with
  | error e' =>
    constructor <;> rintro ⟨⟩ <;> rfl
  | ok p => exact ⟨nofun, nofun⟩

theorem run_take_eq_error {n : Nat} {short : Error} (h : (take n short).run b = .error e) :
    b.length < n ∧ e = short := by
  change (if n ≤ b.length then Except.ok (b.take n, b.drop n) else .error short) = _ at h
  split at h
  · cases h
  · cases h
    exact ⟨Nat.lt_of_not_le ‹_›, rfl⟩

/-- What comes behind a value that was read is faulty only as a part of the whole. -/
theorem Exact.faulty (hf : Exact f) (h : f.read.run b = .ok (a, b')) (hb : Faulty b' e) :
    Faulty b e :=
  hb.of_suffix ⟨f.write a, (hf b a b' h).symm⟩

/-! ## Parts of records -/

theorem blames_uint8 : Blames uint8 := by
  intro b e h
  cases b with
  | nil =>
    cases h
    exact .unexpectedEnd
  | cons x b => cases h

theorem blames_uint64 : Blames uint64 := by
  intro b e h
  obtain ⟨-, rfl⟩ := run_take_eq_error (run_map_eq_error.mp h)
  exact .unexpectedEnd

theorem blames_boolean : Blames boolean := by
  intro b e h
  rcases run_bind_eq_error.mp h with h | ⟨n, b', hn, h⟩
  · exact blames_uint8 b e h
  · split at h
    · cases h
    · cases h
    · rename_i zero one
      cases h
      rw [exact_uint8 b n b' hn]
      exact .boolean (List.mem_append_left _ List.mem_cons_self) zero one

theorem blames_bytes : Blames bytes := by
  intro b e h
  rcases run_bind_eq_error.mp h with h | ⟨n, b', hn, h⟩
  · exact blames_uint64 b e h
  · obtain ⟨hshort, rfl⟩ := run_take_eq_error h
    refine .lengthPastEnd ?_ hshort
    rw [exact_uint64 b n b' hn]
    exact List.suffix_refl _

theorem blames_text : Blames text := by
  intro b e h
  rcases run_bind_eq_error.mp h with h | ⟨v, b', hv, h⟩
  · exact blames_bytes b e h
  · split at h
    · cases h
    · rename_i hbad
      cases h
      rw [exact_bytes b v b' hv]
      refine .text ⟨uint64.write v.length.toUInt64, b', ?_⟩ hbad
      rfl

/-! ## Composition -/

theorem blames_optional (h : Blames f) : Blames (optional f) := by
  intro b e hr
  rcases run_bind_eq_error.mp hr with hr | ⟨n, b', hn, hr⟩
  · exact blames_uint8 b e hr
  · split at hr
    · cases hr
    · exact exact_uint8.faulty hn (h b' e (run_map_eq_error.mp hr))
    · rename_i zero one
      cases hr
      rw [exact_uint8 b n b' hn]
      exact .option (List.mem_append_left _ List.mem_cons_self) zero one

theorem blames_readMany (h : Blames f) (hf : Exact f) {n : Nat}
    (hr : (readMany f n).run b = .error e) : Faulty b e := by
  induction n generalizing b with
  | zero => cases hr
  | succ n ih =>
    rcases run_bind_eq_error.mp hr with hr | ⟨a, b', ha, hr⟩
    · exact h b e hr
    · exact hf.faulty ha (ih (run_map_eq_error.mp hr))

theorem blames_list (h : Blames f) (hf : Exact f) : Blames (list f) := by
  intro b e hr
  rcases run_bind_eq_error.mp hr with hr | ⟨n, b', hn, hr⟩
  · exact blames_uint64 b e hr
  · exact exact_uint64.faulty hn (blames_readMany h hf hr)

theorem blames_pair (h : Blames f) (hf : Exact f) (h' : Blames g) : Blames (pair f g) := by
  intro b e hr
  rcases run_bind_eq_error.mp hr with hr | ⟨a, b', ha, hr⟩
  · exact h b e hr
  · exact hf.faulty ha (h' b' e (run_map_eq_error.mp hr))

theorem blames_via {make : α → β} {parts : β → α} (h : Blames f) : Blames (via f make parts) :=
  fun b e hr => h b e (run_map_eq_error.mp hr)

theorem Blames.decode (h : Blames f) (hd : f.decode b = .error e) : Faulty b e := by
  rw [Format.decode] at hd
  cases hr : f.read.run b with
  | error e' =>
    rw [hr] at hd
    cases hd
    exact h b e hr
  | ok p =>
    rw [hr] at hd
    cases hd

/-! ## Lawful layouts -/

/-- A layout reads back what fits, nothing else, only from where it is written, and blames what it
refuses for what is wrong with it. -/
structure Lawful (f : Format α) (fits : α → Prop) : Prop where
  roundTrips : RoundTrips f fits
  fitting : Fitting f fits
  exact : Exact f
  blames : Blames f

theorem Lawful.congr (h : Lawful f fits) (hf : ∀ a, fits a ↔ fits' a) : Lawful f fits' where
  roundTrips := h.roundTrips.mono fun a => (hf a).mpr
  fitting := h.fitting.mono fun a => (hf a).mp
  exact := h.exact
  blames := h.blames

theorem lawful_uint64 : Lawful uint64 fun _ => True :=
  ⟨roundTrips_uint64, fitting_true, exact_uint64, blames_uint64⟩

theorem lawful_boolean : Lawful boolean fun _ => True :=
  ⟨roundTrips_boolean, fitting_true, exact_boolean, blames_boolean⟩

theorem lawful_bytes : Lawful bytes ShortList :=
  ⟨roundTrips_bytes, fitting_bytes, exact_bytes, blames_bytes⟩

theorem lawful_text : Lawful text fun s => ShortList (Bytes.ofText s) :=
  ⟨roundTrips_text, fitting_text, exact_text, blames_text⟩

theorem Lawful.optional (h : Lawful f fits) : Lawful (optional f) fun o => ∀ a ∈ o, fits a where
  roundTrips := roundTrips_optional h.roundTrips
  fitting := fitting_optional h.fitting
  exact := exact_optional h.exact
  blames := blames_optional h.blames

theorem Lawful.list (h : Lawful f fits) :
    Lawful (list f) fun l => ShortList l ∧ ∀ a ∈ l, fits a where
  roundTrips := roundTrips_list h.roundTrips
  fitting := fitting_list h.fitting
  exact := exact_list h.exact
  blames := blames_list h.blames h.exact

theorem Lawful.pair (h : Lawful f fits) (h' : Lawful g fits₂) :
    Lawful (pair f g) fun p => fits p.1 ∧ fits₂ p.2 where
  roundTrips := roundTrips_pair h.roundTrips h'.roundTrips
  fitting := fitting_pair h.fitting h'.fitting
  exact := exact_pair h.exact h'.exact
  blames := blames_pair h.blames h.exact h'.blames

theorem Lawful.via {make : α → β} {parts : β → α} (h : Lawful f fits)
    (hmake : ∀ b, make (parts b) = b) (hparts : ∀ a, parts (make a) = a) :
    Lawful (via f make parts) fun b => fits (parts b) where
  roundTrips := roundTrips_via h.roundTrips hmake
  fitting := fitting_via h.fitting fun a ha => (hparts a).symm ▸ ha
  exact := exact_via h.exact hparts
  blames := blames_via h.blames

end Lineage.Wire
