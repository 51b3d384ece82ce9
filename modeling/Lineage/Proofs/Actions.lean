import Lineage.Tracker.Basic

/-!
# Runs of actions

`Runs a s r s'` says that an action begun in the state `s` gives the result `r` and ends in the
state `s'`. What an action does is read off its parts: each way to put actions together has a lemma
here that takes a run of the whole apart into runs of the parts.
-/

namespace Lineage

variable {σ ε α β : Type} {s s' : σ}

/-- An action begun in one state gives a result and ends in another state. -/
def Runs (a : ExceptT ε (StateM σ) α) (s : σ) (r : Except ε α) (s' : σ) : Prop :=
  @Eq (Except ε α × σ) (a.run.run s) (r, s')

theorem exists_runs (a : ExceptT ε (StateM σ) α) (s : σ) : ∃ r s', Runs a s r s' :=
  ⟨_, _, rfl⟩

/-! ## Composition -/

@[simp] theorem runs_pure {a : α} {r : Except ε α} :
    Runs (pure a) s r s' ↔ r = .ok a ∧ s' = s := by
  constructor
  · rintro ⟨⟩
    exact ⟨rfl, rfl⟩
  · rintro ⟨rfl, rfl⟩
    rfl

@[simp] theorem runs_throw {e : ε} {r : Except ε α} :
    Runs (throw e) s r s' ↔ r = .error e ∧ s' = s := by
  constructor
  · rintro ⟨⟩
    exact ⟨rfl, rfl⟩
  · rintro ⟨rfl, rfl⟩
    rfl

@[simp] theorem runs_get {r : Except ε σ} : Runs get s r s' ↔ r = .ok s ∧ s' = s := by
  constructor
  · rintro ⟨⟩
    exact ⟨rfl, rfl⟩
  · rintro ⟨rfl, rfl⟩
    rfl

@[simp] theorem runs_set {t : σ} {r : Except ε PUnit} :
    Runs (set t) s r s' ↔ r = .ok ⟨⟩ ∧ s' = t := by
  constructor
  · rintro ⟨⟩
    exact ⟨rfl, rfl⟩
  · rintro ⟨rfl, rfl⟩
    rfl

@[simp] theorem runs_modify {f : σ → σ} {r : Except ε PUnit} :
    Runs (modify f) s r s' ↔ r = .ok ⟨⟩ ∧ s' = f s := by
  constructor
  · rintro ⟨⟩
    exact ⟨rfl, rfl⟩
  · rintro ⟨rfl, rfl⟩
    rfl

@[simp] theorem runs_ofExcept {x r : Except ε α} :
    Runs (ofExcept x) s r s' ↔ r = x ∧ s' = s := by
  cases x with
  | ok a => exact runs_pure
  | error e => exact runs_throw

@[simp] theorem runs_liftM {x : StateM σ α} {r : Except ε α} :
    Runs (liftM x) s r s' ↔ r = .ok (x.run s).1 ∧ s' = (x.run s).2 := by
  constructor
  · rintro ⟨⟩
    exact ⟨rfl, rfl⟩
  · rintro ⟨rfl, rfl⟩
    rfl

theorem runs_adapt_ok {ε' : Type} {wrap : ε → ε'} {x : ExceptT ε (StateM σ) α} {a : α} :
    Runs (ExceptT.adapt wrap x) s (.ok a) s' ↔ Runs x s (.ok a) s' := by
  have hrun : (ExceptT.adapt wrap x).run.run s =
      ((x.run.run s).1.mapError wrap, (x.run.run s).2) := rfl
  rw [Runs, Runs, hrun]
  generalize x.run.run s = y
  obtain ⟨r, t⟩ := y
  cases r with
  | error e => constructor <;> intro h <;> cases h
  | ok b => constructor <;> intro h <;> cases h <;> rfl

theorem runs_adapt_error {ε' : Type} {wrap : ε → ε'} {x : ExceptT ε (StateM σ) α} {e : ε'} :
    Runs (ExceptT.adapt wrap x) s (.error e) s' ↔ ∃ e₀, Runs x s (.error e₀) s' ∧ e = wrap e₀ := by
  have hrun : (ExceptT.adapt wrap x).run.run s =
      ((x.run.run s).1.mapError wrap, (x.run.run s).2) := rfl
  simp only [Runs, hrun]
  generalize x.run.run s = y
  obtain ⟨r, t⟩ := y
  cases r with
  | error e₁ =>
    constructor
    · rintro ⟨⟩
      exact ⟨e₁, rfl, rfl⟩
    · rintro ⟨_, ⟨⟩, rfl⟩
      rfl
  | ok b =>
    constructor
    · exact fun h => nomatch h
    · rintro ⟨_, h, -⟩
      cases h

theorem except_bind_eq_ok {x : Except ε α} {f : α → Except ε β} {b : β} :
    x >>= f = .ok b ↔ ∃ a, x = .ok a ∧ f a = .ok b := by
  cases x with
  | error e => exact ⟨nofun, nofun⟩
  | ok a =>
    constructor
    · exact fun h => ⟨a, rfl, h⟩
    · rintro ⟨_, ⟨⟩, h⟩
      exact h

theorem except_mapError_eq_ok {ε' : Type} {x : Except ε α} {f : ε → ε'} {a : α} :
    x.mapError f = .ok a ↔ x = .ok a := by
  cases x with
  | error e => exact ⟨nofun, nofun⟩
  | ok b => exact ⟨fun h => congrArg Except.ok (Except.ok.inj h), fun h => by rw [h]; rfl⟩

theorem exists_of_mem_mapM {f : α → Except ε β} {l : List α} {l' : List β} {b : β}
    (h : l.mapM f = .ok l') (hb : b ∈ l') : ∃ a ∈ l, f a = .ok b := by
  induction l generalizing l' with
  | nil =>
    cases h
    exact absurd hb List.not_mem_nil
  | cons a rest ih =>
    rw [List.mapM_cons] at h
    obtain ⟨b', hb', h⟩ := except_bind_eq_ok.mp h
    obtain ⟨more, hmore, h⟩ := except_bind_eq_ok.mp h
    cases h
    rcases List.mem_cons.mp hb with rfl | hb
    · exact ⟨a, List.mem_cons_self, hb'⟩
    · obtain ⟨c, hc, hcb⟩ := ih hmore hb
      exact ⟨c, List.mem_cons_of_mem _ hc, hcb⟩

/-- The second part is run if the first one gives something, and the first one's error stands. -/
theorem runs_bind {x : ExceptT ε (StateM σ) α} {f : α → ExceptT ε (StateM σ) β}
    {r : Except ε β} : Runs (x >>= f) s r s' ↔
      (∃ a s₁, Runs x s (.ok a) s₁ ∧ Runs (f a) s₁ r s') ∨
        ∃ e, Runs x s (.error e) s' ∧ r = .error e := by
  have hrun : (x >>= f).run.run s = match x.run.run s with
      | (.ok a, s₁) => (f a).run.run s₁
      | (.error e, s₁) => (.error e, s₁) := by
    change ((x.run >>= ExceptT.bindCont f).run s) = _
    rw [StateT.run_bind]
    generalize x.run.run s = y
    obtain ⟨_ | _, _⟩ := y <;> rfl
  simp only [Runs, hrun]
  generalize x.run.run s = y
  obtain ⟨e | a, s₁⟩ := y
  · constructor
    · rintro ⟨⟩
      exact .inr ⟨e, rfl, rfl⟩
    · rintro (⟨_, _, ⟨⟩, _⟩ | ⟨_, ⟨⟩, rfl⟩)
      rfl
  · constructor
    · exact fun h => .inl ⟨a, s₁, rfl, h⟩
    · rintro (⟨_, _, ⟨⟩, h⟩ | ⟨_, ⟨⟩, _⟩)
      exact h

/-- Where the first part gives something, the second one is what is left to run. -/
theorem runs_bind_of_ok {x : ExceptT ε (StateM σ) α} {f : α → ExceptT ε (StateM σ) β}
    {r : Except ε β} {a : α} {s₁ : σ} (h : Runs x s (.ok a) s₁) :
    Runs (x >>= f) s r s' ↔ Runs (f a) s₁ r s' := by
  rw [runs_bind]
  constructor
  · rintro (⟨_, _, h', hrest⟩ | ⟨_, h', -⟩)
    · cases h.symm.trans h'
      exact hrest
    · cases h.symm.trans h'
  · exact fun hrest => .inl ⟨a, s₁, h, hrest⟩

theorem runs_bind_of_error {x : ExceptT ε (StateM σ) α} {f : α → ExceptT ε (StateM σ) β}
    {r : Except ε β} {e : ε} {s₁ : σ} (h : Runs x s (.error e) s₁) :
    Runs (x >>= f) s r s' ↔ r = .error e ∧ s' = s₁ := by
  rw [runs_bind]
  constructor
  · rintro (⟨_, _, h', -⟩ | ⟨_, h', rfl⟩)
    · cases h.symm.trans h'
    · cases h.symm.trans h'
      exact ⟨rfl, rfl⟩
  · rintro ⟨rfl, rfl⟩
    exact .inr ⟨e, h, rfl⟩

@[simp] theorem runs_bind_ok {x : ExceptT ε (StateM σ) α} {f : α → ExceptT ε (StateM σ) β}
    {b : β} : Runs (x >>= f) s (.ok b) s' ↔
      ∃ a s₁, Runs x s (.ok a) s₁ ∧ Runs (f a) s₁ (.ok b) s' := by
  simp [runs_bind]

section
variable {r : Except ε β}

@[simp] theorem runs_pure_bind {a : α} {f : α → ExceptT ε (StateM σ) β} :
    Runs (pure a >>= f) s r s' ↔ Runs (f a) s r s' :=
  Iff.rfl

@[simp] theorem runs_throw_bind {e : ε} {f : α → ExceptT ε (StateM σ) β} :
    Runs (throw e >>= f) s r s' ↔ r = .error e ∧ s' = s :=
  runs_throw

@[simp] theorem runs_get_bind {f : σ → ExceptT ε (StateM σ) β} :
    Runs (get >>= f) s r s' ↔ Runs (f s) s r s' :=
  Iff.rfl

@[simp] theorem runs_set_bind {t : σ} {f : PUnit → ExceptT ε (StateM σ) β} :
    Runs (set t >>= f) s r s' ↔ Runs (f ⟨⟩) t r s' :=
  Iff.rfl

@[simp] theorem runs_modify_bind {m : σ → σ} {f : PUnit → ExceptT ε (StateM σ) β} :
    Runs (modify m >>= f) s r s' ↔ Runs (f ⟨⟩) (m s) r s' :=
  Iff.rfl

@[simp] theorem runs_liftM_bind {x : StateM σ α} {f : α → ExceptT ε (StateM σ) β} :
    Runs (liftM x >>= f) s r s' ↔ Runs (f (x.run s).1) (x.run s).2 r s' :=
  Iff.rfl

end

@[simp] theorem runs_map_ok {x : ExceptT ε (StateM σ) α} {f : α → β} {b : β} :
    Runs (f <$> x) s (.ok b) s' ↔ ∃ a, Runs x s (.ok a) s' ∧ f a = b := by
  rw [map_eq_pure_bind, runs_bind_ok]
  simp only [runs_pure, Except.ok.injEq]
  constructor
  · rintro ⟨a, _, h, rfl, rfl⟩
    exact ⟨a, h, rfl⟩
  · rintro ⟨a, h, rfl⟩
    exact ⟨a, s', h, rfl, rfl⟩

theorem runs_map_error {x : ExceptT ε (StateM σ) α} {f : α → β} {e : ε} :
    Runs (f <$> x) s (.error e) s' ↔ Runs x s (.error e) s' := by
  rw [map_eq_pure_bind, runs_bind]
  simp

@[simp] theorem runs_discard_ok {x : ExceptT ε (StateM σ) α} {u : PUnit} :
    Runs (discard x) s (.ok u) s' ↔ ∃ a, Runs x s (.ok a) s' := by
  rw [discard, map_const, Function.comp_apply, runs_map_ok]
  exact ⟨fun ⟨a, h, _⟩ => ⟨a, h⟩, fun ⟨a, h⟩ => ⟨a, h, rfl⟩⟩

/-- An error of the first part is handled by the second one. -/
theorem runs_tryCatch {x : ExceptT ε (StateM σ) α} {f : ε → ExceptT ε (StateM σ) α}
    {r : Except ε α} : Runs (tryCatch x f) s r s' ↔
      (∃ a, Runs x s (.ok a) s' ∧ r = .ok a) ∨
        ∃ e s₁, Runs x s (.error e) s₁ ∧ Runs (f e) s₁ r s' := by
  have hrun : (tryCatch x f).run.run s = match x.run.run s with
      | (.ok a, s₁) => (.ok a, s₁)
      | (.error e, s₁) => (f e).run.run s₁ := by
    change ((x.run >>= fun
      | .ok a => pure (.ok a)
      | .error e => (f e).run).run s) = _
    rw [StateT.run_bind]
    generalize x.run.run s = y
    obtain ⟨_ | _, _⟩ := y <;> rfl
  simp only [Runs, hrun]
  generalize x.run.run s = y
  obtain ⟨e | a, s₁⟩ := y
  · constructor
    · exact fun h => .inr ⟨e, s₁, rfl, h⟩
    · rintro (⟨_, ⟨⟩, _⟩ | ⟨_, _, ⟨⟩, h⟩)
      exact h
  · constructor
    · rintro ⟨⟩
      exact .inl ⟨a, rfl, rfl⟩
    · rintro (⟨_, ⟨⟩, rfl⟩ | ⟨_, _, ⟨⟩, _⟩)
      rfl

theorem eq_ok_of_toOption {x : Except ε α} {a : α} (h : x.toOption = some a) : x = .ok a := by
  cases x with
  | error e => cases h
  | ok b => exact congrArg Except.ok (Option.some.inj h)

theorem runs_tryCatch_get {f : σ → ExceptT ε (StateM σ) α} {g : ε → ExceptT ε (StateM σ) α}
    {r : Except ε α} : Runs (tryCatch (get >>= f) g) s r s' ↔ Runs (tryCatch (f s) g) s r s' := by
  simp only [runs_tryCatch, runs_get_bind]

theorem runs_of_fst {a : ExceptT ε (StateM σ) α} {r : Except ε α} (h : (a.run.run s).1 = r) :
    Runs a s r (a.run.run s).2 :=
  Prod.ext h rfl

theorem runs_of_toOption {a : ExceptT ε (StateM σ) α} {x : α}
    (h : (a.run.run s).1.toOption = some x) : Runs a s (.ok x) (a.run.run s).2 :=
  runs_of_fst (eq_ok_of_toOption h)

/-! ## Frames -/

/-- A relation of states that holds of any number of moves if it holds of each. -/
class Frame (R : σ → σ → Prop) : Prop where
  refl : ∀ s, R s s
  trans : ∀ {s t u}, R s t → R t u → R s u

/-- However an action ends, it has moved the state within a relation. -/
def Moves (R : σ → σ → Prop) (a : ExceptT ε (StateM σ) α) : Prop :=
  ∀ s r s', Runs a s r s' → R s s'

/-- One reading of the state is the same as before. -/
def Fixes {τ : Type} (f : σ → τ) (s s' : σ) : Prop := f s' = f s

instance {τ : Type} (f : σ → τ) : Frame (Fixes f) where
  refl _ := rfl
  trans h h' := h'.trans h

instance {τ : Type} {R : τ → τ → Prop} [Frame R] (f : σ → τ) : Frame (InvImage R f) where
  refl s := Frame.refl (f s)
  trans := Frame.trans (R := R)

section
variable {R : σ → σ → Prop} [Frame R]

theorem moves_pure {a : α} : Moves R (pure a : ExceptT ε (StateM σ) α) := by
  intro s r s' h
  rw [(runs_pure.mp h).2]
  exact Frame.refl s

theorem moves_throw {e : ε} : Moves R (throw e : ExceptT ε (StateM σ) α) := by
  intro s r s' h
  rw [(runs_throw.mp h).2]
  exact Frame.refl s

theorem moves_get : Moves R (get : ExceptT ε (StateM σ) σ) := by
  intro s r s' h
  rw [(runs_get.mp h).2]
  exact Frame.refl s

theorem moves_ofExcept {x : Except ε α} : Moves R (ofExcept x : ExceptT ε (StateM σ) α) := by
  intro s r s' h
  rw [(runs_ofExcept.mp h).2]
  exact Frame.refl s

theorem moves_bind {x : ExceptT ε (StateM σ) α} {g : α → ExceptT ε (StateM σ) β}
    (hx : Moves R x) (hg : ∀ a, Moves R (g a)) : Moves R (x >>= g) := by
  intro s r s' h
  rcases runs_bind.mp h with ⟨a, s₁, h₁, h₂⟩ | ⟨e, h₁, -⟩
  · exact Frame.trans (hx s _ s₁ h₁) (hg a s₁ r s' h₂)
  · exact hx s _ s' h₁

theorem moves_map {x : ExceptT ε (StateM σ) α} {f : α → β} (hx : Moves R x) :
    Moves R (f <$> x) := by
  rw [map_eq_pure_bind]
  exact moves_bind hx fun _ => moves_pure

theorem moves_discard {x : ExceptT ε (StateM σ) α} (hx : Moves R x) : Moves R (discard x) := by
  rw [discard, map_const, Function.comp_apply]
  exact moves_map hx

omit [Frame R] in
theorem moves_adapt {ε' : Type} {wrap : ε → ε'} {x : ExceptT ε (StateM σ) α} (hx : Moves R x) :
    Moves R (ExceptT.adapt wrap x) := by
  intro s r s' h
  have hs : (x.run.run s).2 = s' := congrArg Prod.snd h
  exact hx s _ s' (Prod.ext rfl hs)

theorem moves_tryCatch {x : ExceptT ε (StateM σ) α} {g : ε → ExceptT ε (StateM σ) α}
    (hx : Moves R x) (hg : ∀ e, Moves R (g e)) : Moves R (tryCatch x g) := by
  intro s r s' h
  rcases runs_tryCatch.mp h with ⟨a, h₁, -⟩ | ⟨e, s₁, h₁, h₂⟩
  · exact hx s _ s' h₁
  · exact Frame.trans (hx s _ s₁ h₁) (hg e s₁ r s' h₂)

end

/-! ## Disks, hosts and worlds -/

variable {ε' : Type}

theorem Host.runs_onDisk {a : Disk.Action ε α} {h h' : Host} {r : Except ε α} :
    Runs (Host.onDisk a) h r h' ↔ ∃ d, Runs a h.disk r d ∧ h' = { h with disk := d } := by
  constructor
  · rintro ⟨⟩
    exact ⟨_, rfl, rfl⟩
  · rintro ⟨d, hd, rfl⟩
    change ((a.run.run h.disk).1, { h with disk := (a.run.run h.disk).2 }) = _
    rw [hd]

theorem World.runs_onHost {wrap : ε → ε'} {a : Host.Action ε α} {w w' : World}
    {r : Except ε' α} : Runs (World.onHost wrap a) w r w' ↔
      ∃ r₀ h, Runs a w.host r₀ h ∧ r = r₀.mapError wrap ∧ w' = { w with host := h } := by
  constructor
  · rintro ⟨⟩
    exact ⟨_, _, rfl, rfl, rfl⟩
  · rintro ⟨r₀, h, ha, rfl, rfl⟩
    change ((a.run.run w.host).1.mapError wrap, { w with host := (a.run.run w.host).2 }) = _
    rw [ha]

theorem World.runs_onHost_ok {wrap : ε → ε'} {a : Host.Action ε α} {w w' : World} {x : α} :
    Runs (World.onHost wrap a) w (.ok x) w' ↔
      ∃ h, Runs a w.host (.ok x) h ∧ w' = { w with host := h } := by
  rw [World.runs_onHost]
  constructor
  · rintro ⟨_ | _, h, ha, ⟨⟩, rfl⟩
    exact ⟨h, ha, rfl⟩
  · rintro ⟨h, ha, rfl⟩
    exact ⟨_, h, ha, rfl, rfl⟩

theorem World.runs_onDisk {wrap : ε → ε'} {a : Disk.Action ε α} {w w' : World}
    {r : Except ε' α} : Runs (World.onDisk wrap a) w r w' ↔
      ∃ r₀ d, Runs a w.host.disk r₀ d ∧ r = r₀.mapError wrap ∧
        w' = { w with host := { w.host with disk := d } } := by
  simp only [World.onDisk, World.runs_onHost, Host.runs_onDisk]
  constructor
  · rintro ⟨r₀, _, ⟨d, hd, rfl⟩, hr, rfl⟩
    exact ⟨r₀, d, hd, hr, rfl⟩
  · rintro ⟨r₀, d, hd, hr, rfl⟩
    exact ⟨r₀, _, ⟨d, hd, rfl⟩, hr, rfl⟩

theorem World.runs_onDisk_ok {wrap : ε → ε'} {a : Disk.Action ε α} {w w' : World} {x : α} :
    Runs (World.onDisk wrap a) w (.ok x) w' ↔ ∃ d, Runs a w.host.disk (.ok x) d ∧
      w' = { w with host := { w.host with disk := d } } := by
  rw [World.runs_onDisk]
  constructor
  · rintro ⟨_ | _, d, hd, ⟨⟩, rfl⟩
    exact ⟨d, hd, rfl⟩
  · rintro ⟨d, hd, rfl⟩
    exact ⟨_, d, hd, rfl, rfl⟩

theorem Host.moves_onDisk {R : Disk → Disk → Prop} {a : Disk.Action ε α} (ha : Moves R a) :
    Moves (InvImage R Host.disk) (Host.onDisk a) := by
  intro h r h' hr
  obtain ⟨d, hd, rfl⟩ := Host.runs_onDisk.mp hr
  exact ha _ r d hd

/-- The disk of a world's host. -/
def World.disk (w : World) : Disk := w.host.disk

/-- A world but for its disk and the failures to come. -/
def World.rest (w : World) : Tracker × Table × Rows := (w.tracker, w.host.history, w.host.snapshots)

/-- What is done on the disk leaves all else alone. -/
theorem World.rest_onDisk {wrap : ε → ε'} {a : Disk.Action ε α} :
    Moves (Fixes World.rest) (World.onDisk wrap a) := by
  intro w r w' h
  obtain ⟨_, _, _, -, rfl⟩ := World.runs_onDisk.mp h
  rfl

@[simp] theorem World.runs_update {f : Tracker → Tracker} {w w' : World} {r : Except ε Unit} :
    Runs (World.update f) w r w' ↔ r = .ok () ∧ w' = { w with tracker := f w.tracker } :=
  runs_modify

theorem World.runs_update_bind {f : Tracker → Tracker} {g : Unit → World.Action ε α}
    {w w' : World} {r : Except ε α} :
    Runs (World.update f >>= g) w r w' ↔ Runs (g ()) { w with tracker := f w.tracker } r w' :=
  Iff.rfl

/-! ## Disks -/

namespace Disk

variable {d d' : Disk} {op : DiskOperation}

theorem run_consult : (consult op).run d = (d.outage 0 op, { d with outage := d.outage.later }) :=
  rfl

/-- What an operation answers where the plan of failures lets it through. -/
theorem runs_query {f : Disk → Except IoError α} {r : Except IoError α} :
    Runs (query op f) d r d' ↔ d' = { d with outage := d.outage.later } ∧
      r = match d.outage 0 op with
        | some fault => .error fault.error
        | none => f { d with outage := d.outage.later } := by
  rw [query, runs_liftM_bind, run_consult]
  cases d.outage 0 op <;> simp [and_comm]

theorem runs_change_ok {f : Disk → Except IoError Disk} {u : Unit} :
    Runs (change op f) d (.ok u) d' ↔
      d.outage 0 op = none ∧ f { d with outage := d.outage.later } = .ok d' := by
  simp only [change, runs_bind_ok, runs_query, runs_set]
  cases d.outage 0 op <;> simp [eq_comm]

theorem runs_change_error {f : Disk → Except IoError Disk} {e : IoError} :
    Runs (change op f) d (.error e) d' ↔ d' = { d with outage := d.outage.later } ∧
      match d.outage 0 op with
      | some fault => e = fault.error
      | none => f { d with outage := d.outage.later } = .error e := by
  simp only [change, runs_bind, runs_query, runs_set]
  cases d.outage 0 op <;> simp [eq_comm, and_comm]

end Disk

/-! ## Tables -/

namespace Host

variable {h h' : Host} {op : TableOperation}

theorem runs_consult {r : Except TableError Unit} : Runs (consult op) h r h' ↔
    h' = { h with outage := h.outage.later } ∧
      r = match h.outage 0 op with
        | none => .ok ()
        | some e => .error (.io e) := by
  rw [consult, runs_get_bind, runs_set_bind]
  cases h.outage 0 op <;> simp [and_comm]

theorem runs_consult_ok {u : Unit} : Runs (consult op) h (.ok u) h' ↔
    h.outage 0 op = none ∧ h' = { h with outage := h.outage.later } := by
  rw [runs_consult]
  cases h.outage 0 op <;> simp

theorem runs_noSnapshots {r : Except TableError Bool} : Runs noSnapshots h r h' ↔
    h' = { h with outage := h.outage.later } ∧
      r = match h.outage 0 .isEmpty with
        | none => .ok h.snapshots.isEmpty
        | some e => .error (.io e) := by
  rw [noSnapshots, runs_bind]
  simp only [runs_consult, runs_get_bind, runs_pure]
  cases h.outage 0 .isEmpty with
  | none => simp [and_comm]
  | some e => simp [and_comm]

end Host

end Lineage
