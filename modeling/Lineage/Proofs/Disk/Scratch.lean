import Lineage.Proofs.Disk.Files

/-!
# Working by way of a scratch file

A file is replaced as a whole if its successor is written into a scratch file, which then takes its
name. However far that comes, at every other place there is what was there, and no byte of any file
but the scratch file is written (`Supplants`).
-/

namespace Lineage

namespace Path

/-- What a path starts with is what it has fewer of its components. -/
theorem plainSteps_take (p : Path) (n : Nat) :
    (ofComponents (p.components.take n)).plainSteps <+: p.plainSteps := by
  have hslash : ∀ c ∈ p.components.take n, Unslashed (componentText c) :=
    fun c hc => unslashed_componentText (List.mem_of_mem_take hc)
  have hwhole : ((p.components.map componentText).filter (· != "")).filter (· != ".") =
      p.plainSteps := by
    rw [components_eq, filter_map_start, map_componentText, plainSteps, steps]
    simp only [List.filter_filter]
    refine List.filter_congr fun s _ => ?_
    cases s != "" <;> cases s != "." <;> rfl
  rw [plainSteps, steps_ofComponents hslash, ← hwhole]
  exact (((List.take_prefix n _).map componentText).filter _).filter _

end Path

namespace Disk

variable {d d' : Disk} {p source target : Path} {s q start : Place} {l l' : List String}
  {places places' : Place → Prop} {files files' : FileId → Prop} {id : FileId} {b : Bytes}

/-! ## Plans of failures -/

theorem within_calm : Within places d d.calm := ⟨fun _ => .inl rfl, fun _ => rfl⟩

@[simp] theorem at?_calm : d.calm.at? p = d.at? p :=
  (show Within (fun _ => False) d d.calm from within_calm).at?_eq not_false

theorem fixes_calm_later : Fixes calm d { d with outage := d.outage.later } := rfl

theorem node?_of_calm (h : Fixes calm d d') : d'.node? q = d.node? q := by
  have hnodes : d'.calm.node? q = d.calm.node? q := congrArg (node? · q) h
  exact hnodes

theorem at?_of_calm (h : Fixes calm d d') : d'.at? p = d.at? p := by
  rw [← at?_calm, show d'.calm = d.calm from h, at?_calm]

theorem content_of_calm (h : Fixes calm d d') : d'.content id = d.content id := by
  have hcontent : d'.calm.content id = d.calm.content id := congrArg (content · id) h
  exact hcontent

theorem fixes_query {α : Type} {op : DiskOperation} {f : Disk → Except IoError α} :
    Moves (Fixes calm) (query op f) := by
  intro d r d' h
  rw [(runs_query.mp h).1]
  exact fixes_calm_later

theorem fixes_settle : Moves (Fixes calm) (settle p) := by
  rw [settle]
  split
  · exact fixes_query
  · exact moves_pure

/-! ## Directories that are there -/

theorem walk_prefix (hw : d.walk start (l ++ l') = .ok q) (hd : d.node? q = some .directory) :
    ∃ m, d.walk start l = .ok m ∧ d.node? m = some .directory := by
  induction l generalizing start with
  | nil => exact ⟨start, rfl, directory_of_walk hw hd⟩
  | cons s l ih =>
    obtain ⟨hstart, hs, hrest⟩ := walk_cons.mp hw
    obtain ⟨m, hm, hdir⟩ := ih hrest
    exact ⟨m, walk_cons.mpr ⟨hstart, hs, hm⟩, hdir⟩

/-- The directories around a directory are there. -/
theorem walk_ancestor (hw : d.walk [] p.steps = .ok q) (hd : d.node? q = some .directory) :
    ∀ a ∈ ancestors p, ∃ m, d.walk [] a.steps = .ok m ∧ d.node? m = some .directory := by
  intro a ha
  rcases List.mem_cons.mp ha with rfl | ha
  · exact ⟨q, hw, hd⟩
  · obtain ⟨n, -, hn⟩ := List.mem_filterMap.mp ha
    dsimp only at hn
    split at hn
    · cases hn
    · cases hn
      obtain ⟨more, hmore⟩ := p.plainSteps_take (p.components.length - 1 - n)
      rw [← walk_filter hd, ← Path.plainSteps, ← hmore] at hw
      obtain ⟨m, hm, hdir⟩ := walk_prefix hw hd
      exact ⟨m, (walk_filter hdir).mp hm, hdir⟩

/-- Nothing is done that changes the disk if some directories are there. -/
def Undone (ps : List Path) (d d' : Disk) : Prop :=
  (∀ a ∈ ps, ∃ m, d.walk [] a.steps = .ok m ∧ d.node? m = some .directory) → Fixes calm d d'

instance {ps : List Path} : Frame (Undone ps) where
  refl _ _ := rfl
  trans h h' hdirs := by
    have hfirst := h hdirs
    refine Frame.trans hfirst (h' fun a ha => ?_)
    obtain ⟨m, hm, hdir⟩ := hdirs a ha
    exact ⟨m, walk_mono (fun q hq => (node?_of_calm hfirst).trans hq) hm,
      (node?_of_calm hfirst).trans hdir⟩

/-- A directory that is there is not made. -/
theorem undone_makeDirectory {ps : List Path} (hp : p ∈ ps) :
    Moves (Undone ps) (makeDirectory p) := by
  intro d r d' h hdirs
  obtain ⟨m, hm, hdir⟩ := hdirs p hp
  cases r with
  | error e =>
    rw [(runs_change_error.mp h).1]
    rfl
  | ok u =>
    have hmade := (runs_change_ok.mp h).2
    rw [withDirectory] at hmade
    obtain ⟨_, -, hmade⟩ := except_bind_eq_ok.mp hmade
    obtain ⟨spot, hspot, hmade⟩ := except_bind_eq_ok.mp hmade
    have hm' : walk { d with outage := d.outage.later } [] p.steps = .ok m :=
      walk_mono (d := d) (fun _ hnode => hnode) hm
    cases hm'.symm.trans hspot
    rw [show node? { d with outage := d.outage.later } m = some .directory from hdir] at hmade
    cases hmade

/-- However it ends, making a directory that is there changes nothing. -/
theorem fixes_makeDirectories {r : Except IoError Unit} (hw : d.walk [] p.steps = .ok q)
    (hd : d.node? q = some .directory) (h : Runs (makeDirectories p) d r d') : Fixes calm d d' :=
  moves_makeDirectories (R := Undone (ancestors p)) (fun _ => undone_makeDirectory) d r d' h
    (walk_ancestor hw hd)

/-! ## Scratch files -/

/-- The numbers of all files are in use, and the file at a place has no other name. -/
structure Orderly (s : Place) (d : Disk) : Prop where
  numbered : ∀ q id, d.node? q = some (.file id) → id < d.unused
  alone : ∀ q id, d.node? s = some (.file id) → d.node? q = some (.file id) → q = s

/-- Nothing changed but which files are at some places, and what is in some files and in the one at
the scratch place. What came to a place was the scratch file, or is new. -/
structure Supplants (s : Place) (places : Place → Prop) (files : FileId → Prop) (d d' : Disk) :
    Prop where
  node : ∀ q, d'.node? q = d.node? q ∨
    places q ∧ d.node? q ≠ some .directory ∧ d'.node? q ≠ some .directory
  moved : ∀ q id, d'.node? q = some (.file id) →
    d.node? q = some (.file id) ∨ d.node? s = some (.file id) ∨ d.unused ≤ id
  content : ∀ id, id < d.unused → d.node? s ≠ some (.file id) → ¬ files id →
    d'.content id = d.content id
  unused : d.unused ≤ d'.unused
  orderly : d.Orderly s → d'.Orderly s

instance : Frame (Supplants s places files) where
  refl _ := ⟨fun _ => .inl rfl, fun _ _ => .inl, fun _ _ _ _ => rfl, Nat.le_refl _, fun h => h⟩
  trans := by
    intro d d₁ d₂ h h'
    refine ⟨fun q => ?_, fun q id hq => ?_, fun id hid hs hfile => ?_,
      Nat.le_trans h.unused h'.unused, fun ho => h'.orderly (h.orderly ho)⟩
    · rcases h.node q with he | ⟨hp, hd, hd'⟩
      · rw [← he]
        exact h'.node q
      · rcases h'.node q with he' | ⟨-, -, hd''⟩
        · exact .inr ⟨hp, hd, he' ▸ hd'⟩
        · exact .inr ⟨hp, hd, hd''⟩
    · rcases h'.moved q id hq with hq | hs | hnew
      · exact h.moved q id hq
      · exact .inr ((or_iff_right_of_imp .inl).mp (h.moved s id hs))
      · exact .inr (.inr (Nat.le_trans h.unused hnew))
    · rw [h'.content id (Nat.lt_of_lt_of_le hid h.unused) (fun hs₁ => ?_) hfile,
        h.content id hid hs hfile]
      rcases h.moved s id hs₁ with hs₁ | hs₁ | hnew
      · exact hs hs₁
      · exact hs hs₁
      · exact absurd hid (Nat.not_lt.mpr hnew)

namespace Supplants

theorem mono (h : Supplants s places files d d') (hp : ∀ q, places q → places' q) :
    Supplants s places' files d d' :=
  { h with node := fun q => (h.node q).imp_right fun hq => ⟨hp q hq.1, hq.2⟩ }

theorem writing (h : Supplants s places files d d') (hf : ∀ id, files id → files' id) :
    Supplants s places files' d d' :=
  { h with content := fun id hid hs hfile => h.content id hid hs fun hw => hfile (hf id hw) }

theorem within (h : Supplants s places files d d') : Within places d d'.calm :=
  ⟨h.node, fun _ => rfl⟩

theorem at?_eq (h : Supplants s places files d d') (hp : ¬ places p.spot) :
    d'.at? p = d.at? p := by
  rw [← at?_calm, h.within.at?_eq hp]

theorem directory (h : Supplants s places files d d') :
    d'.node? q = some .directory ↔ d.node? q = some .directory :=
  h.within.directory

/-- A file that has another name keeps its bytes. -/
theorem content_eq (h : Supplants s places files d d') (ho : d.Orderly s) (hq : q ≠ s)
    (hfile : ¬ files id) (hnode : d.node? q = some (.file id)) : d'.content id = d.content id :=
  h.content id (ho.numbered q id hnode) (fun hs => hq (ho.alone q id hs hnode)) hfile

/-- A file of another name, which is at none of the places, is left alone. -/
theorem file (h : Supplants s places files d d') (ho : d.Orderly s) (hp : ¬ places p.spot)
    (hs : p.spot ≠ s) (hfile : ¬ files id) (hat : d.at? p = some (.file id)) :
    d'.at? p = some (.file id) ∧ d'.content id = d.content id :=
  ⟨(h.at?_eq hp).trans hat, h.content_eq ho hs hfile (at?_eq_some.mp hat).2⟩

theorem of_fixes (h : Fixes calm d d') : Supplants s places files d d' := by
  have hunused : d'.calm.unused = d.calm.unused := congrArg Disk.unused h
  refine ⟨fun q => .inl (node?_of_calm h), fun q id hq => .inl ?_,
    fun id _ _ _ => content_of_calm h, Nat.le_of_eq hunused.symm,
    fun ho => ⟨fun q id hq => ?_, fun q id hs hq => ?_⟩⟩
  · rwa [node?_of_calm h] at hq
  · exact Nat.lt_of_lt_of_eq (ho.numbered q id (node?_of_calm h ▸ hq)) hunused.symm
  · exact ho.alone q id (node?_of_calm h ▸ hs) (node?_of_calm h ▸ hq)

end Supplants

/-- Other bytes in the scratch file change nothing else. -/
theorem supplants_withContent (h : d.node? s = some (.file id) ∨ files id) :
    Supplants s places files d (d.withContent id b) where
  node _ := .inl rfl
  moved _ _ := .inl
  content i _ hs hfile := by
    rw [content_withContent, if_neg]
    rintro rfl
    exact h.elim hs hfile
  unused := Nat.le_refl _
  orderly ho := ⟨ho.numbered, ho.alone⟩

theorem supplants_append {r : Except IoError Unit} (h : d.node? s = some (.file id) ∨ files id)
    (hr : Runs (append id b) d r d') : Supplants s places files d d' := by
  obtain ⟨b', rfl⟩ := withContent_of_append hr
  have hlater : Supplants s places files d { d with outage := d.outage.later } :=
    .of_fixes fixes_calm_later
  exact Frame.trans hlater (supplants_withContent h)

theorem supplants_withFile (h : d.withFile p = .ok (id, d')) :
    Supplants p.spot (· = p.spot) files d d' ∧ d'.node? p.spot = some (.file id) := by
  have hfile := (at?_eq_some.mp (at?_of_withFile h)).2
  refine ⟨?_, hfile⟩
  obtain ⟨-, -, -, ⟨-, rfl⟩ | ⟨hnone, rfl, hd'⟩⟩ := withFile_spec h
  · exact Frame.refl _
  have hnode : ∀ q, d'.node? q = if p.spot = q then some (.file d.unused) else d.node? q := by
    intro q
    rw [hd']
    exact node?_insert (d := d) (ne_nil_of_node?_none hnone)
  have hmoved : ∀ q i, d'.node? q = some (.file i) →
      d.node? q = some (.file i) ∨ q = p.spot ∧ i = d.unused := by
    intro q i hq
    rw [hnode] at hq
    split at hq
    · cases hq
      exact .inr ⟨Eq.symm ‹_›, rfl⟩
    · exact .inl hq
  have hunused : d'.unused = d.unused + 1 := by rw [hd']
  refine ⟨fun q => (withFile_eq_ok h).node q, fun q i hq => ?_, fun i hi _ _ => ?_, ?_,
    fun ho => ⟨fun q i hq => ?_, fun q i hs hq => ?_⟩⟩
  · rcases hmoved q i hq with hq | ⟨-, rfl⟩
    · exact .inl hq
    · exact .inr (.inr (Nat.le_refl _))
  · rw [hd']
    exact content_withContent.trans (if_neg (Nat.ne_of_gt hi))
  · rw [hunused]
    exact Nat.le_succ _
  · rw [hunused]
    rcases hmoved q i hq with hq | ⟨-, rfl⟩
    · exact Nat.lt_succ_of_lt (ho.numbered q i hq)
    · exact Nat.lt_succ_self _
  · cases hs.symm.trans hfile
    rcases hmoved q _ hq with hq | ⟨hq, -⟩
    · exact absurd (ho.numbered q _ hq) (Nat.lt_irrefl _)
    · exact hq

theorem supplants_writeFile :
    Moves (Supplants p.spot (· = p.spot) files) (writeFile p b) := by
  intro d r d' h
  have hcreated {id : FileId} {d₁ : Disk} (hcreate : Runs (createFile p) d (.ok id) d₁) :
      Supplants p.spot (· = p.spot) files d d₁ ∧ d₁.node? p.spot = some (.file id) := by
    obtain ⟨-, d₂, hfile, rfl⟩ := runs_createFile_ok.mp hcreate
    obtain ⟨hmade, hnode⟩ := supplants_withFile hfile
    have hlater : Supplants p.spot (· = p.spot) files d { d with outage := d.outage.later } :=
      .of_fixes fixes_calm_later
    exact ⟨Frame.trans hlater (Frame.trans hmade (supplants_withContent (.inl hnode))), hnode⟩
  rcases runs_bind.mp h with ⟨id, d₁, hcreate, happend⟩ | ⟨e, hcreate, -⟩
  · obtain ⟨hmade, hnode⟩ := hcreated hcreate
    exact Frame.trans hmade (supplants_append (.inl hnode) happend)
  · rw [createFile] at hcreate
    rcases runs_bind.mp hcreate with ⟨⟨id, d₁⟩, d₂, -, hset⟩ | ⟨e', hquery, -⟩
    · rw [runs_set_bind] at hset
      cases (runs_pure.mp hset).1
    · exact .of_fixes (fixes_query _ _ _ hquery)

/-- A name that is removed from a file leaves none alone at its place. -/
theorem supplants_erase (hs : d.node? s ≠ some .directory) :
    Supplants s (· = s) files d { d with nodes := d.nodes.erase s } := by
  have hnode : ∀ q, node? { d with nodes := d.nodes.erase s } q = if s = q then none else d.node? q :=
    fun q => node?_erase (ne_nil_of_node?_ne_directory hs)
  have hstays : ∀ q i, node? { d with nodes := d.nodes.erase s } q = some (.file i) →
      s ≠ q ∧ d.node? q = some (.file i) := by
    intro q i hq
    rw [hnode] at hq
    split at hq
    · cases hq
    · exact ⟨‹_›, hq⟩
  exact ⟨(Within.erase hs).node, fun q i hq => .inl (hstays q i hq).2, fun _ _ _ _ => rfl,
    Nat.le_refl _, fun ho => ⟨fun q i hq => ho.numbered q i (hstays q i hq).2,
      fun q i hq _ => absurd rfl (hstays s i hq).1⟩⟩

theorem supplants_discardFile : Moves (Supplants p.spot (· = p.spot) files) (discardFile p) := by
  unfold discardFile
  have hremove : Moves (Supplants p.spot (· = p.spot) files) (removeFile p) := by
    refine moves_change (fun _ => .of_fixes fixes_calm_later) fun d d' h => ?_
    obtain ⟨hd, rfl⟩ := withoutName_eq_ok h
    exact supplants_erase hd
  refine moves_tryCatch (moves_bind hremove fun _ => moves_pure) fun e => ?_
  split
  · exact moves_pure
  · exact moves_throw

/-- The scratch file takes the name of another one. -/
theorem supplants_rename : Moves (Supplants source.spot
    (fun q => q = source.spot ∨ q = target.spot) files) (rename source target) := by
  refine moves_change (fun _ => .of_fixes fixes_calm_later) fun d d' h => ?_
  have hw := within_renamed h
  obtain ⟨id, hid, -, hdir, rfl⟩ := renamed_eq_ok h
  have hs := (at?_eq_some.mp hid).2
  have hsource : source.spot ≠ [] := ne_nil_of_node?_ne_directory (by rw [hs]; exact nofun)
  have hstays : ∀ q i, node? { d with
      nodes := (d.nodes.erase source.spot).insert target.spot (.file id) } q = some (.file i) →
      q = target.spot ∧ i = id ∨ q ≠ source.spot ∧ d.node? q = some (.file i) := by
    intro q i hq
    rw [node?_insert (d := { d with nodes := d.nodes.erase source.spot })
      (ne_nil_of_node?_ne_directory hdir), node?_erase (d := d) hsource] at hq
    split at hq
    · cases hq
      exact .inl ⟨Eq.symm ‹_›, rfl⟩
    · split at hq
      · cases hq
      · exact .inr ⟨Ne.symm ‹_›, hq⟩
  refine ⟨hw.node, fun q i hq => ?_, fun _ _ _ _ => rfl, Nat.le_refl _,
    fun ho => ⟨fun q i hq => ?_, fun q i hq hq' => ?_⟩⟩
  · rcases hstays q i hq with ⟨-, rfl⟩ | ⟨-, hq⟩
    · exact .inr (.inl hs)
    · exact .inl hq
  · rcases hstays q i hq with ⟨-, rfl⟩ | ⟨-, hq⟩
    · exact ho.numbered _ _ hs
    · exact ho.numbered q i hq
  · -- Something is at the scratch place only if that is the target too.
    rcases hstays _ i hq with ⟨htarget, rfl⟩ | ⟨hne, -⟩
    · rcases hstays q _ hq' with ⟨hq, -⟩ | ⟨hne, hq⟩
      · rw [hq, htarget]
      · exact absurd (ho.alone q _ hs hq) hne
    · exact absurd rfl hne

end Disk

end Lineage
