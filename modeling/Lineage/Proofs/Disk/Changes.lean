import Lineage.Proofs.Disk.Walks

/-!
# What operations change on a disk

An operation on files changes what is at the spots of the paths it is given and nothing else, and it
neither makes nor removes a directory (`Disk.Within`). What other paths lead to stays as it was
(`Disk.Within.at?_eq`).
-/

namespace Lineage.Disk

variable {d d' : Disk} {p source target : Path} {q spot : Place} {n : Node}
variable {places places' : Place → Prop}

/-! ## Frames -/

/-- The disk once no operation on it fails any more. -/
def calm (d : Disk) : Disk := { d with outage := .quiet }

/-- Nothing changed but what is at some places, where there was and is no directory; and where
nothing was to fail, nothing is. -/
structure Within (places : Place → Prop) (d d' : Disk) : Prop where
  node : ∀ q, d'.node? q = d.node? q ∨
    places q ∧ d.node? q ≠ some .directory ∧ d'.node? q ≠ some .directory
  quiet : d.outage = .quiet → d'.outage = .quiet

instance : Frame (Within places) where
  refl _ := ⟨fun _ => .inl rfl, id⟩
  trans h h' := by
    refine ⟨fun q => ?_, fun hq => h'.quiet (h.quiet hq)⟩
    rcases h.node q with he | ⟨hp, hd, hd'⟩
    · rw [← he]
      exact h'.node q
    · rcases h'.node q with he' | ⟨-, -, hd''⟩
      · exact .inr ⟨hp, hd, he' ▸ hd'⟩
      · exact .inr ⟨hp, hd, hd''⟩

namespace Within

theorem mono (h : Within places d d') (hp : ∀ q, places q → places' q) : Within places' d d' :=
  ⟨fun q => (h.node q).imp_right fun hq => ⟨hp q hq.1, hq.2⟩, h.quiet⟩

theorem directory (h : Within places d d') :
    d'.node? q = some .directory ↔ d.node? q = some .directory := by
  rcases h.node q with he | ⟨-, hd, hd'⟩
  · rw [he]
  · exact iff_of_false hd' hd

theorem place (h : Within places d d') : d'.place p = .ok q ↔ d.place p = .ok q :=
  ⟨place_mono fun _ => h.directory.mp, place_mono fun _ => h.directory.mpr⟩

/-- A path that leads to none of the places leads to what it led to. -/
theorem at?_eq (h : Within places d d') (hp : ¬ places p.spot) : d'.at? p = d.at? p := by
  refine Option.ext fun n => ?_
  rw [at?_eq_some, at?_eq_some, h.place, (h.node p.spot).resolve_right fun hq => hp hq.1]

theorem at?_eq_directory (h : Within places d d') :
    d'.at? p = some .directory ↔ d.at? p = some .directory := by
  rw [at?_eq_some, at?_eq_some, h.place, h.directory]

theorem later : Within places d { d with outage := d.outage.later } :=
  ⟨fun _ => .inl rfl, fun h => by rw [h]; rfl⟩

theorem at?_later : at? { d with outage := d.outage.later } p = d.at? p :=
  (show Within (fun _ => False) d _ from .later).at?_eq id

theorem place_later : Disk.place { d with outage := d.outage.later } p = .ok q ↔
    d.place p = .ok q :=
  (show Within (fun _ => False) d _ from .later).place

theorem insert (hd : d.node? spot ≠ some .directory) {id : FileId} :
    Within (· = spot) d { d with nodes := d.nodes.insert spot (.file id) } := by
  refine ⟨fun q => ?_, fun h => h⟩
  have hnode := node?_insert (ne_nil_of_node?_ne_directory hd) (d := d) (n := .file id) (q := q)
  by_cases hq : spot = q
  · subst hq
    rw [if_pos rfl] at hnode
    rw [hnode]
    exact .inr ⟨rfl, hd, nofun⟩
  · exact .inl (hnode.trans (if_neg hq))

theorem erase (hd : d.node? spot ≠ some .directory) :
    Within (· = spot) d { d with nodes := d.nodes.erase spot } := by
  refine ⟨fun q => ?_, fun h => h⟩
  have hnode := node?_erase (ne_nil_of_node?_ne_directory hd) (d := d) (q := q)
  by_cases hq : spot = q
  · subst hq
    rw [if_pos rfl] at hnode
    rw [hnode]
    exact .inr ⟨rfl, hd, nofun⟩
  · exact .inl (hnode.trans (if_neg hq))

theorem content {d' : Disk} (hn : d'.nodes = d.nodes) (ho : d'.outage = d.outage) :
    Within places d d' := by
  refine ⟨fun q => .inl ?_, fun h => ho.trans h⟩
  rw [node?.eq_def, node?.eq_def, hn]

end Within

/-! ## Operations -/

theorem moves_change {R : Disk → Disk → Prop} [Frame R] {op : DiskOperation}
    {f : Disk → Except IoError Disk} (hlater : ∀ d, R d { d with outage := d.outage.later })
    (hf : ∀ d d', f d = .ok d' → R d d') : Moves R (change op f) := by
  intro d r d' h
  cases r with
  | ok u => exact Frame.trans (hlater d) (hf _ _ (runs_change_ok.mp h).2)
  | error e =>
    rw [(runs_change_error.mp h).1]
    exact hlater d

theorem moves_query {α : Type} {op : DiskOperation} {f : Disk → Except IoError α} :
    Moves (Within places) (query op f) := by
  intro d r d' h
  rw [(runs_query.mp h).1]
  exact .later

theorem moves_settle : Moves (Within places) (settle p) := by
  rw [settle]
  split
  · exact moves_query
  · exact moves_pure

/-- An append changes the bytes of its file, if anything. -/
theorem withContent_of_append {id : FileId} {b : Bytes} {r : Except IoError Unit}
    (h : Runs (append id b) d r d') :
    ∃ b', d' = ({ d with outage := d.outage.later } : Disk).withContent id b' := by
  rw [append, runs_liftM_bind, run_consult, runs_modify_bind] at h
  cases ho : d.outage 0 .append with
  | none =>
    rw [ho] at h
    exact ⟨_, (runs_pure.mp h).2⟩
  | some f =>
    rw [ho] at h
    exact ⟨_, (runs_throw.mp h).2⟩

theorem moves_append {id : FileId} {b : Bytes} : Moves (Within places) (append id b) := by
  intro d r d' h
  obtain ⟨b', rfl⟩ := withContent_of_append h
  exact Frame.trans .later (.content rfl rfl)

/-! ### Links -/

theorem linked_eq_ok (h : d.linked source target = .ok d') :
    d.place target = .ok target.spot ∧ d.node? target.spot = none ∧
      ∃ id, d' = { d with nodes := d.nodes.insert target.spot (.file id) } := by
  rw [linked] at h
  obtain ⟨_, -, h⟩ := except_bind_eq_ok.mp h
  obtain ⟨_, -, h⟩ := except_bind_eq_ok.mp h
  obtain ⟨n, -, h⟩ := except_bind_eq_ok.mp h
  obtain ⟨spot, hspot, h⟩ := except_bind_eq_ok.mp h
  rw [place_eq_spot hspot] at h hspot
  cases hnode : d.node? target.spot with
  | some m =>
    rw [hnode] at h
    cases h
  | none =>
    rw [hnode] at h
    cases n with
    | directory => cases h
    | file id => exact ⟨hspot, rfl, id, (Except.ok.inj h).symm⟩

/-- A link is refused for the sake of what is at its target only if something is. -/
theorem linked_eq_error {e : IoError} (h : d.linked source target = .error e)
    (he : e.kind = .alreadyExists) : (d.at? target).isSome = true := by
  rw [linked] at h
  cases hsource : checkText source with
  | error f =>
    rw [hsource] at h
    cases h
    exact absurd he (checkText_ne_alreadyExists hsource)
  | ok u =>
    cases htarget : checkText target with
    | error f =>
      rw [hsource, htarget] at h
      cases h
      exact absurd he (checkText_ne_alreadyExists htarget)
    | ok u =>
      cases hfind : d.find source with
      | error f =>
        rw [hsource, htarget, hfind] at h
        cases h
        exact absurd he (find_ne_alreadyExists hfind)
      | ok n =>
        cases hplace : d.place target with
        | error f =>
          rw [hsource, htarget, hfind, hplace] at h
          cases h
          exact absurd he (place_ne_alreadyExists hplace)
        | ok spot =>
          have hspot := place_eq_spot hplace
          subst hspot
          rw [hsource, htarget, hfind, hplace] at h
          cases hnode : d.node? target.spot with
          | some m => exact isSome_at?.mpr ⟨hplace, by rw [hnode]; rfl⟩
          | none =>
            simp only [bind, Except.bind, hnode] at h
            cases n with
            | directory =>
              cases h
              cases he
            | file id => cases h

theorem moves_link : Moves (Within (· = target.spot)) (link source target) := by
  refine moves_change (fun _ => .later) fun d d' h => ?_
  obtain ⟨-, hnone, id, rfl⟩ := linked_eq_ok h
  exact .insert (by rw [hnone]; exact nofun)

theorem isSome_at?_of_link {u : Unit} (h : Runs (link source target) d (.ok u) d') :
    (d'.at? target).isSome = true := by
  have hw := moves_link d _ d' h
  obtain ⟨hplace, hnone, id, hd'⟩ := linked_eq_ok (runs_change_ok.mp h).2
  have hne : target.spot ≠ [] := ne_nil_of_node?_none hnone
  refine isSome_at?.mpr ⟨hw.place.mpr (Within.place_later.mp hplace), ?_⟩
  rw [hd', node?_insert hne, if_pos rfl]
  rfl

theorem isSome_at?_of_link_error {e : IoError} (hq : d.outage = .quiet)
    (he : e.kind = .alreadyExists) (h : Runs (link source target) d (.error e) d') :
    (d'.at? target).isSome = true := by
  obtain ⟨rfl, hf⟩ := runs_change_error.mp h
  have hnone : d.outage 0 .link = none := by rw [hq, Outage.quiet_apply]
  rw [hnone] at hf
  exact linked_eq_error hf he

/-! ### Removals -/

/-- The name that goes is a file's. -/
theorem withoutName_iff : d.withoutName p = .ok d' ↔
    ∃ id, d.at? p = some (.file id) ∧ d' = { d with nodes := d.nodes.erase p.spot } := by
  rw [withoutName]
  constructor
  · intro h
    obtain ⟨spot, hspot, h⟩ := except_bind_eq_ok.mp h
    have hs := place_eq_spot hspot
    subst hs
    cases hnode : d.node? p.spot with
    | none =>
      rw [hnode] at h
      cases h
    | some n =>
      rw [hnode] at h
      cases n with
      | directory => cases h
      | file id => exact ⟨id, at?_eq_some.mpr ⟨hspot, hnode⟩, (Except.ok.inj h).symm⟩
  · rintro ⟨id, hat, rfl⟩
    obtain ⟨hplace, hnode⟩ := at?_eq_some.mp hat
    rw [hplace]
    simp only [bind, Except.bind, hnode]

theorem withoutName_eq_ok (h : d.withoutName p = .ok d') :
    d.node? p.spot ≠ some .directory ∧ d' = { d with nodes := d.nodes.erase p.spot } := by
  obtain ⟨id, hat, rfl⟩ := withoutName_iff.mp h
  refine ⟨?_, rfl⟩
  rw [(at?_eq_some.mp hat).2]
  exact nofun

theorem withoutName_eq_error {e : IoError} (h : d.withoutName p = .error e)
    (hd : d.at? p ≠ some .directory) : d.at? p = none := by
  cases hat : d.at? p with
  | none => rfl
  | some n =>
    cases n with
    | directory => exact absurd hat hd
    | file id => cases h.symm.trans (withoutName_iff.mpr ⟨id, hat, rfl⟩)

theorem runs_removeFile_ok {u : Unit} : Runs (removeFile p) d (.ok u) d' ↔
    d.outage 0 .remove = none ∧ ∃ id, d.at? p = some (.file id) ∧
      d' = { d with nodes := d.nodes.erase p.spot, outage := d.outage.later } := by
  simp only [removeFile, runs_change_ok, withoutName_iff, Within.at?_later]

theorem moves_removeFile : Moves (Within (· = p.spot)) (removeFile p) := by
  refine moves_change (fun _ => .later) fun d d' h => ?_
  obtain ⟨hd, rfl⟩ := withoutName_eq_ok h
  exact .erase hd

/-- A path leads nowhere once its file is removed, or if there was none to remove. -/
theorem at?_eq_none_of_removeFile {r : Except IoError Unit} (hq : d.outage = .quiet)
    (hd : d.at? p ≠ some .directory) (h : Runs (removeFile p) d r d') : d'.at? p = none := by
  cases r with
  | ok u =>
    obtain ⟨hdir, rfl⟩ := withoutName_eq_ok (runs_change_ok.mp h).2
    refine Option.eq_none_iff_forall_ne_some.mpr fun n hn => ?_
    have hnode := (at?_eq_some.mp hn).2
    rw [node?_erase (ne_nil_of_node?_ne_directory hdir), if_pos rfl] at hnode
    cases hnode
  | error e =>
    obtain ⟨rfl, hf⟩ := runs_change_error.mp h
    have hnone : d.outage 0 .remove = none := by rw [hq, Outage.quiet_apply]
    rw [hnone] at hf
    have hd' : at? { d with outage := d.outage.later } p ≠ some .directory := by
      rwa [Within.at?_later]
    exact withoutName_eq_error hf hd'

theorem moves_discardFile : Moves (Within (· = p.spot)) (discardFile p) := by
  unfold discardFile
  refine moves_tryCatch (moves_bind moves_removeFile fun _ => moves_pure) fun e => ?_
  split
  · exact moves_pure
  · exact moves_throw

/-! ### Renaming and writing -/

theorem fileAt_eq_ok {id : FileId} (h : d.fileAt p = .ok id) : d.at? p = some (.file id) := by
  rw [fileAt] at h
  obtain ⟨n, hn, h⟩ := except_bind_eq_ok.mp h
  rw [at?, hn]
  cases n with
  | directory => cases h
  | file i =>
    cases h
    rfl

theorem renamed_eq_ok (h : d.renamed source target = .ok d') :
    ∃ id, d.at? source = some (.file id) ∧ d.place target = .ok target.spot ∧
      d.node? target.spot ≠ some .directory ∧
      d' = { d with nodes := (d.nodes.erase source.spot).insert target.spot (.file id) } := by
  rw [renamed] at h
  obtain ⟨_, -, h⟩ := except_bind_eq_ok.mp h
  obtain ⟨_, -, h⟩ := except_bind_eq_ok.mp h
  obtain ⟨origin, horigin, h⟩ := except_bind_eq_ok.mp h
  obtain ⟨id, hid, h⟩ := except_bind_eq_ok.mp h
  obtain ⟨spot, hspot, h⟩ := except_bind_eq_ok.mp h
  rw [place_eq_spot hspot] at h hspot
  rw [place_eq_spot horigin] at h
  refine ⟨id, fileAt_eq_ok hid, hspot, ?_⟩
  cases hnode : d.node? target.spot with
  | none =>
    rw [hnode] at h
    exact ⟨nofun, (Except.ok.inj h).symm⟩
  | some n =>
    rw [hnode] at h
    cases n with
    | directory => cases h
    | file i => exact ⟨nofun, (Except.ok.inj h).symm⟩

theorem within_renamed (h : d.renamed source target = .ok d') :
    Within (fun q => q = source.spot ∨ q = target.spot) d d' := by
  obtain ⟨id, hid, -, hdir, rfl⟩ := renamed_eq_ok h
  have herase : Within (· = source.spot) d { d with nodes := d.nodes.erase source.spot } :=
    .erase (by rw [(at?_eq_some.mp hid).2]; exact nofun)
  exact Frame.trans (herase.mono fun _ => .inl)
    ((Within.insert (mt herase.directory.mp hdir)).mono fun _ => .inr)

theorem moves_rename :
    Moves (Within fun q => q = source.spot ∨ q = target.spot) (rename source target) :=
  moves_change (fun _ => .later) fun _ _ => within_renamed

/-- The target leads to the file that the source led to. -/
theorem at?_of_rename {u : Unit} (h : Runs (rename source target) d (.ok u) d') :
    ∃ id, d.at? source = some (.file id) ∧ d'.at? target = some (.file id) ∧
      d'.contents = d.contents := by
  have hw := moves_rename d _ d' h
  obtain ⟨id, hid, hplace, hdir, hd'⟩ := renamed_eq_ok (runs_change_ok.mp h).2
  rw [Within.at?_later] at hid
  have hne := ne_nil_of_node?_ne_directory hdir
  have hplace' := Within.place_later.mp hplace
  have hnode : node? d' target.spot = some (.file id) := by
    rw [hd']
    exact (node?_insert (d := { d with nodes := d.nodes.erase source.spot }) hne).trans (if_pos rfl)
  exact ⟨id, hid, at?_eq_some.mpr ⟨hw.place.mpr hplace', hnode⟩, by rw [hd']⟩

theorem isSome_at?_of_rename {u : Unit} (h : Runs (rename source target) d (.ok u) d') :
    (d'.at? target).isSome = true := by
  obtain ⟨id, -, hid, -⟩ := at?_of_rename h
  rw [hid]
  rfl

theorem withFile_eq_ok {id : FileId} (h : d.withFile p = .ok (id, d')) :
    Within (· = p.spot) d d' := by
  rw [withFile] at h
  obtain ⟨_, -, h⟩ := except_bind_eq_ok.mp h
  obtain ⟨spot, hspot, h⟩ := except_bind_eq_ok.mp h
  have hs : spot = p.spot := walk_eq_foldl hspot
  subst hs
  cases hask : p.asksDirectory with
  | true =>
    rw [hask] at h
    cases h
  | false =>
    rw [hask] at h
    simp only [Bool.false_eq_true, if_false] at h
    cases hnode : d.node? p.spot with
    | none =>
      rw [hnode] at h
      cases h
      exact Frame.trans (.insert (by rw [hnode]; exact nofun)) (.content rfl rfl)
    | some n =>
      rw [hnode] at h
      cases n with
      | directory => cases h
      | file i =>
        cases h
        exact Frame.refl d

theorem within_of_query_withFile {id : FileId} {d₁ d₂ : Disk}
    (h : Runs (query .create (·.withFile p)) d (.ok (id, d₁)) d₂) : Within (· = p.spot) d d₁ := by
  obtain ⟨-, hr⟩ := runs_query.mp h
  have hfile : withFile { d with outage := d.outage.later } p = .ok (id, d₁) := by
    split at hr
    · cases hr
    · exact hr.symm
  exact Frame.trans .later (withFile_eq_ok hfile)

theorem moves_createFile : Moves (Within (· = p.spot)) (createFile p) := by
  intro d r d' h
  rw [createFile, runs_bind, or_comm] at h
  rcases h with ⟨e, hq, -⟩ | ⟨⟨id, d₁⟩, d₂, hq, h⟩
  · exact moves_query d _ d' hq
  · rw [runs_set_bind] at h
    obtain ⟨-, rfl⟩ := runs_pure.mp h
    exact Frame.trans (within_of_query_withFile hq) (.content rfl rfl)

theorem moves_openFile : Moves (Within (· = p.spot)) (openFile p) := by
  intro d r d' h
  rw [openFile, runs_bind, or_comm] at h
  rcases h with ⟨e, hq, -⟩ | ⟨⟨id, d₁⟩, d₂, hq, h⟩
  · exact moves_query d _ d' hq
  · rw [runs_set_bind] at h
    obtain ⟨-, rfl⟩ := runs_pure.mp h
    exact within_of_query_withFile hq

theorem moves_writeFile {b : Bytes} : Moves (Within (· = p.spot)) (writeFile p b) :=
  moves_bind moves_createFile fun _ => moves_append

theorem withDirectory_of_directory (hcomp : p.components ≠ []) (hw : d.walk [] p.steps = .ok q)
    (hd : d.node? q = some .directory) : ∃ e, d.withDirectory p = .error e ∧ e.kind ≠ .notFound := by
  rw [withDirectory]
  cases hc : checkText p with
  | error e =>
    refine ⟨e, rfl, ?_⟩
    rw [checkText] at hc
    split at hc
    · cases hc
      intro hk
      cases hk
    · split at hc
      · rename_i htext
        have hp : p = ⟨""⟩ := by rw [← htext]
        rw [hp] at hcomp
        exact absurd rfl hcomp
      · split at hc
        · cases hc
          intro hk
          cases hk
        · cases hc
  | ok u =>
    rw [hw]
    simp only [bind, Except.bind, hd]
    refine ⟨_, rfl, fun hk => ?_⟩
    cases hk

/-- Where a directory is, none has to be made. -/
theorem within_makeDirectories {u : Unit} (hq : d.outage = .quiet)
    (hw : d.walk [] p.steps = .ok q) (hd : d.node? q = some .directory)
    (h : Runs (makeDirectories p) d (.ok u) d') : Within places d d' := by
  rw [makeDirectories] at h
  split at h
  · rw [(runs_pure.mp h).2]
    exact Frame.refl d
  · rename_i hcomp
    have hw' : walk { d with outage := d.outage.later } [] p.steps = .ok q :=
      walk_mono (d := d) (fun _ hdir => hdir) hw
    obtain ⟨f, hf, hkind⟩ := withDirectory_of_directory hcomp hw' hd
    rw [ancestors, makeDirectoriesFrom] at h
    rcases runs_tryCatch.mp h with ⟨v, hmade, -⟩ | ⟨e, d₁, hmade, h⟩
    · have hok := (runs_change_ok.mp hmade).2
      rw [hf] at hok
      cases hok
    · obtain ⟨rfl, he⟩ := runs_change_error.mp hmade
      have hnone : d.outage 0 .makeDirectory = none := by rw [hq, Outage.quiet_apply]
      rw [hnone] at he
      have hef : f = e := Except.error.inj (hf.symm.trans he)
      rw [hef] at hkind
      rw [if_neg hkind, runs_get_bind] at h
      split at h
      · rw [(runs_pure.mp h).2]
        exact .later
      · cases (runs_throw.mp h).1

/-! ## Growth -/

/-- Whatever was at a place is there still. -/
def Grows (d d' : Disk) : Prop := ∀ q n, d.node? q = some n → d'.node? q = some n

instance : Frame Grows where
  refl _ _ _ := id
  trans h h' q n hn := h' q n (h q n hn)

theorem Grows.at?_eq_some (h : Grows d d') (hn : d.at? p = some n) : d'.at? p = some n := by
  obtain ⟨hplace, hnode⟩ := Disk.at?_eq_some.mp hn
  exact Disk.at?_eq_some.mpr ⟨place_mono (fun q => h q _) hplace, h _ n hnode⟩

theorem Grows.insert (hs : d.node? spot = none) :
    Grows d { d with nodes := d.nodes.insert spot n } := by
  intro q m hm
  rw [node?_insert (ne_nil_of_node?_none hs), if_neg, hm]
  intro hq
  rw [hq, hm] at hs
  cases hs

theorem grows_link : Moves Grows (link source target) := by
  refine moves_change (fun _ _ _ => id) fun d d' h => ?_
  obtain ⟨-, hnone, id, rfl⟩ := linked_eq_ok h
  exact .insert hnone

theorem grows_makeDirectory : Moves Grows (makeDirectory p) := by
  refine moves_change (fun _ _ _ => id) fun d d' h => ?_
  rw [withDirectory] at h
  obtain ⟨_, -, h⟩ := except_bind_eq_ok.mp h
  obtain ⟨spot, -, h⟩ := except_bind_eq_ok.mp h
  cases hnode : d.node? spot with
  | some n =>
    rw [hnode] at h
    cases h
  | none =>
    rw [hnode] at h
    cases h
    exact .insert hnode

theorem moves_makeDirectories {R : Disk → Disk → Prop} [Frame R]
    (h : ∀ a ∈ ancestors p, Moves R (makeDirectory a)) : Moves R (makeDirectories p) := by
  have hunless (p : Path) (e : IoError) :
      Moves R (do unless (← get).isDirectory p do throw e : Action IoError Unit) := by
    refine moves_bind moves_get fun d => ?_
    split
    · exact moves_pure
    · exact moves_throw
  have hfrom {ps : List Path} (h : ∀ a ∈ ps, Moves R (makeDirectory a)) :
      Moves R (makeDirectoriesFrom ps) := by
    induction ps with
    | nil => exact moves_pure
    | cons p parents ih =>
      rw [List.forall_mem_cons] at h
      refine moves_tryCatch h.1 fun e => ?_
      split
      · exact moves_bind (ih h.2) fun _ => moves_tryCatch h.1 (hunless p)
      · exact hunless p e
  rw [makeDirectories]
  split
  · exact moves_pure
  · exact hfrom h

theorem grows_makeDirectories : Moves Grows (makeDirectories p) :=
  moves_makeDirectories fun _ _ => grows_makeDirectory

end Lineage.Disk
