import Lineage.Proofs.Disk.Changes

/-!
# What operations do where nothing is refused

Under the quiet plan of failures an operation goes through whenever the disk allows it, and leaves
the disk that it is said to leave (`Disk.runs_append_quiet`, `Disk.runs_openFile_quiet` and their
like). Bytes are looked at by the number of their file (`Disk.content`), to
which paths lead (`Disk.bytesAt_eq`).
-/

namespace Lineage.Disk

variable {d d' : Disk} {p source target : Path} {q spot : Place} {id i : FileId} {b : Bytes}

theorem later_of_quiet (hq : d.outage = .quiet) : { d with outage := d.outage.later } = d := by
  rw [hq, Outage.later_quiet, ← hq]

theorem runs_query_quiet {α : Type} {op : DiskOperation} {f : Disk → Except IoError α}
    {r : Except IoError α} (hq : d.outage = .quiet) :
    Runs (query op f) d r d' ↔ d' = d ∧ r = f d := by
  rw [runs_query, later_of_quiet hq, hq]
  exact Iff.rfl

theorem runs_query_ok {α : Type} {op : DiskOperation} {f : Disk → Except IoError α} {a : α} :
    Runs (query op f) d (.ok a) d' ↔ d.outage 0 op = none ∧
      d' = { d with outage := d.outage.later } ∧ f { d with outage := d.outage.later } = .ok a := by
  rw [runs_query]
  cases d.outage 0 op <;> simp [eq_comm]

theorem runs_change_of_ok {op : DiskOperation} {f : Disk → Except IoError Disk}
    (hq : d.outage = .quiet) (h : f d = .ok d') : Runs (change op f) d (.ok ()) d' := by
  rw [runs_change_ok, later_of_quiet hq, hq]
  exact ⟨rfl, h⟩

/-! ## Bytes -/

theorem content_withContent : (d.withContent id b).content i = if id = i then b else d.content i := by
  rw [content, withContent, content, Std.ExtTreeMap.getD_insert]
  simp only [Std.compare_eq_iff_eq]

@[simp] theorem at?_withContent : (d.withContent id b).at? p = d.at? p :=
  (show Within (fun _ => False) d (d.withContent id b) from .content rfl rfl).at?_eq not_false

theorem find_eq_ok {n : Node} : d.find p = .ok n ↔ d.at? p = some n := by
  rw [at?]
  cases d.find p with
  | error e => exact iff_of_false (fun h => by cases h) fun h => by cases h
  | ok m => exact ⟨fun h => congrArg some (Except.ok.inj h), fun h => by rw [Option.some.inj h]⟩

theorem isFile_iff : d.isFile p = true ↔ ∃ id, d.at? p = some (.file id) := by
  rw [isFile]
  cases hfind : d.find p with
  | error e =>
    refine ⟨nofun, fun ⟨id, hid⟩ => ?_⟩
    rw [find_eq_ok.mpr hid] at hfind
    cases hfind
  | ok n =>
    have hat := find_eq_ok.mp hfind
    cases n with
    | directory =>
      refine ⟨nofun, fun ⟨id, hid⟩ => ?_⟩
      cases hid.symm.trans hat
    | file id => exact ⟨fun _ => ⟨id, hat⟩, fun _ => rfl⟩

theorem isFile_eq (h : d'.at? p = d.at? p) : d'.isFile p = d.isFile p := by
  rw [Bool.eq_iff_iff, isFile_iff, isFile_iff, h]

theorem fileAt_of_at? (h : d.at? p = some (.file id)) : d.fileAt p = .ok id := by
  rw [fileAt, find_eq_ok.mpr h]
  rfl

theorem bytesAt_eq (h : d.at? p = some (.file id)) : d.bytesAt p = .ok (d.content id) := by
  rw [bytesAt, fileAt_of_at? h]
  rfl

theorem bytesAt_eq_ok :
    d.bytesAt p = .ok b ↔ ∃ id, d.at? p = some (.file id) ∧ d.content id = b := by
  constructor
  · intro h
    cases hfile : d.fileAt p with
    | error e =>
      rw [bytesAt, hfile] at h
      cases h
    | ok id =>
      rw [bytesAt, hfile] at h
      exact ⟨id, fileAt_eq_ok hfile, Except.ok.inj h⟩
  · rintro ⟨id, hat, rfl⟩
    exact bytesAt_eq hat

theorem bytesAt_congr {p' : Path} (h : d.at? p = d.at? p') :
    d.bytesAt p = .ok b ↔ d.bytesAt p' = .ok b := by
  rw [bytesAt_eq_ok, bytesAt_eq_ok, h]

theorem isDirectory_iff : d.isDirectory p = true ↔ d.at? p = some .directory := by
  rw [isDirectory, ← find_eq_ok]
  cases d.find p with
  | error e => exact ⟨nofun, nofun⟩
  | ok n =>
    cases n with
    | directory => exact ⟨fun _ => rfl, fun _ => rfl⟩
    | file id => exact ⟨nofun, nofun⟩

/-! ## Files at paths -/

theorem place_eq (h : p.asksDirectory = false) :
    d.place p = (do checkText p; d.walk [] p.steps) := by
  rw [place, h]
  rfl

/-- A path that ends in a slash leads to no file. -/
theorem asksDirectory_of_file (h : d.at? p = some (.file id)) : p.asksDirectory = false := by
  obtain ⟨hplace, hnode⟩ := at?_eq_some.mp h
  cases hp : p.asksDirectory with
  | false => rfl
  | true =>
    rw [place, hp] at hplace
    obtain ⟨_, -, hwalk⟩ := except_bind_eq_ok.mp hplace
    obtain ⟨m, hm, hdir⟩ := walk_concat hwalk
    have hspot : m = p.spot := walk_eq_foldl hm
    rw [hspot, hnode] at hdir
    cases hdir

theorem withFile_of_file (h : d.at? p = some (.file id)) : d.withFile p = .ok (id, d) := by
  obtain ⟨hplace, hnode⟩ := at?_eq_some.mp h
  have hslash := asksDirectory_of_file h
  rw [place_eq hslash] at hplace
  obtain ⟨_, htext, hwalk⟩ := except_bind_eq_ok.mp hplace
  rw [withFile, htext, hwalk, hslash]
  simp only [bind, Except.bind, Bool.false_eq_true, if_false, hnode]

/-- Where a file can be made, none is or there is one already. -/
theorem withFile_spec (h : d.withFile p = .ok (id, d')) :
    p.asksDirectory = false ∧ (∃ u, checkText p = .ok u) ∧ d.walk [] p.steps = .ok p.spot ∧
      (d.node? p.spot = some (.file id) ∧ d' = d ∨
        d.node? p.spot = none ∧ id = d.unused ∧ d' = { d with
          nodes := d.nodes.insert p.spot (.file d.unused)
          contents := d.contents.insert d.unused []
          unused := d.unused + 1 }) := by
  rw [withFile] at h
  obtain ⟨u, htext, h⟩ := except_bind_eq_ok.mp h
  obtain ⟨spot, hspot, h⟩ := except_bind_eq_ok.mp h
  have hs : spot = p.spot := walk_eq_foldl hspot
  subst hs
  cases hslash : p.asksDirectory with
  | true =>
    rw [hslash] at h
    cases h
  | false =>
    rw [hslash] at h
    simp only [Bool.false_eq_true, if_false] at h
    refine ⟨rfl, ⟨u, htext⟩, hspot, ?_⟩
    cases hnode : d.node? p.spot with
    | none =>
      rw [hnode] at h
      cases h
      exact .inr ⟨rfl, rfl, rfl⟩
    | some n =>
      rw [hnode] at h
      cases n with
      | directory => cases h
      | file i =>
        cases h
        exact .inl ⟨rfl, rfl⟩

theorem at?_of_withFile (h : d.withFile p = .ok (id, d')) : d'.at? p = some (.file id) := by
  obtain ⟨hslash, ⟨u, htext⟩, hwalk, hnode⟩ := withFile_spec h
  have hplace : d.place p = .ok p.spot := by
    rw [place_eq hslash, htext]
    exact hwalk
  refine at?_eq_some.mpr ⟨(withFile_eq_ok h).place.mpr hplace, ?_⟩
  rcases hnode with ⟨hfile, rfl⟩ | ⟨hnone, rfl, rfl⟩
  · exact hfile
  · exact (node?_insert (d := d) (ne_nil_of_node?_none hnone)).trans (if_pos rfl)

/-- A file can be made, or is there, where a path leads to that asks for no directory, and where
none is. -/
theorem exists_withFile_iff : (∃ r, d.withFile p = .ok r) ↔
    p.asksDirectory = false ∧ (∃ u, checkText p = .ok u) ∧ d.walk [] p.steps = .ok p.spot ∧
      d.node? p.spot ≠ some .directory := by
  constructor
  · rintro ⟨⟨id, d₁⟩, h⟩
    obtain ⟨hslash, htext, hwalk, hnode⟩ := withFile_spec h
    refine ⟨hslash, htext, hwalk, ?_⟩
    rcases hnode with ⟨hfile, -⟩ | ⟨hnone, -⟩
    · rw [hfile]
      exact nofun
    · rw [hnone]
      exact nofun
  · rintro ⟨hslash, ⟨u, htext⟩, hwalk, hdir⟩
    rw [withFile, htext, hwalk, hslash]
    simp only [bind, Except.bind, Bool.false_eq_true, if_false]
    cases hnode : d.node? p.spot with
    | none => exact ⟨_, rfl⟩
    | some n =>
      cases n with
      | directory => exact absurd hnode hdir
      | file i => exact ⟨_, rfl⟩

/-- Where a file can be made, one can be made as long as no directory comes or goes. -/
theorem exists_withFile (hd : ∀ q, d'.node? q = some .directory ↔ d.node? q = some .directory)
    (h : ∃ r, d.withFile p = .ok r) : ∃ r, d'.withFile p = .ok r := by
  obtain ⟨hslash, htext, hwalk, hdir⟩ := exists_withFile_iff.mp h
  exact exists_withFile_iff.mpr
    ⟨hslash, htext, walk_mono (fun q => (hd q).mpr) hwalk, mt (hd _).mp hdir⟩

/-- A file can be made, or is there, where a path leads to, with the directories it is in. -/
def Accepts (d : Disk) (p : Path) : Prop :=
  ∃ d₁ made, Runs (makeParents p) d (.ok ()) d₁ ∧ d₁.withFile p = .ok made

/-! ## Runs -/

theorem runs_append_quiet {r : Except IoError Unit} (hq : d.outage = .quiet) :
    Runs (append id b) d r d' ↔ r = .ok () ∧ d' = d.withContent id (d.content id ++ b) := by
  rw [append, runs_liftM_bind, run_consult, later_of_quiet hq, hq]
  exact runs_pure

theorem runs_append_ok {u : Unit} : Runs (append id b) d (.ok u) d' ↔ d.outage 0 .append = none ∧
    d' = ({ d with outage := d.outage.later } : Disk).withContent id (d.content id ++ b) := by
  rw [append, runs_liftM_bind, run_consult, runs_modify_bind]
  cases d.outage 0 .append with
  | none => exact runs_pure.trans (and_congr_left fun _ => ⟨fun _ => rfl, fun _ => rfl⟩)
  | some f => exact runs_throw.trans ⟨fun h => (by cases h.1), fun h => (by cases h.1)⟩

/-- An append that stops part-way leaves what it wrote. -/
theorem runs_append_fault {f : DiskFault} {r : Except IoError Unit}
    (h : d.outage 0 .append = some f) : Runs (append id b) d r d' ↔ r = .error f.error ∧
      d' = ({ d with outage := d.outage.later } : Disk).withContent id
        (d.content id ++ b.take f.written) := by
  rw [append, runs_liftM_bind, run_consult, h]
  exact runs_throw

theorem runs_openFile_quiet (hq : d.outage = .quiet) :
    Runs (openFile p) d (.ok id) d' ↔ d.withFile p = .ok (id, d') := by
  rw [openFile, runs_bind_ok]
  constructor
  · rintro ⟨⟨i, d₁⟩, d₂, hquery, h⟩
    rw [runs_set_bind] at h
    obtain ⟨rfl, hfile⟩ := (runs_query_quiet hq).mp hquery
    obtain ⟨⟨⟩, rfl⟩ := runs_pure.mp h
    exact hfile.symm
  · intro h
    refine ⟨(id, d'), d, (runs_query_quiet hq).mpr ⟨rfl, h.symm⟩, ?_⟩
    rw [runs_set_bind]
    exact runs_pure.mpr ⟨rfl, rfl⟩

theorem runs_createFile_ok : Runs (createFile p) d (.ok id) d' ↔ d.outage 0 .create = none ∧
    ∃ d₁, withFile { d with outage := d.outage.later } p = .ok (id, d₁) ∧
      d' = d₁.withContent id [] := by
  rw [createFile, runs_bind_ok]
  constructor
  · rintro ⟨⟨i, d₁⟩, d₂, hquery, h⟩
    rw [runs_set_bind] at h
    obtain ⟨hop, -, hfile⟩ := runs_query_ok.mp hquery
    obtain ⟨⟨⟩, rfl⟩ := runs_pure.mp h
    exact ⟨hop, d₁, hfile, rfl⟩
  · rintro ⟨hop, d₁, h, rfl⟩
    refine ⟨(id, d₁), _, runs_query_ok.mpr ⟨hop, rfl, h⟩, ?_⟩
    rw [runs_set_bind]
    exact runs_pure.mpr ⟨rfl, rfl⟩

theorem runs_createFile_quiet (hq : d.outage = .quiet) : Runs (createFile p) d (.ok id) d' ↔
    ∃ d₁, d.withFile p = .ok (id, d₁) ∧ d' = d₁.withContent id [] := by
  rw [runs_createFile_ok, later_of_quiet hq, hq]
  exact and_iff_right rfl

theorem exists_runs_writeFile (hq : d.outage = .quiet) (h : ∃ r, d.withFile p = .ok r) :
    ∃ d', Runs (writeFile p b) d (.ok ()) d' := by
  obtain ⟨⟨id, d₁⟩, h⟩ := h
  have hcreate := (runs_createFile_quiet hq).mpr ⟨d₁, h, rfl⟩
  have hq₁ := (moves_createFile _ _ _ hcreate).quiet hq
  exact ⟨_, runs_bind_ok.mpr ⟨id, _, hcreate, (runs_append_quiet hq₁).mpr ⟨rfl, rfl⟩⟩⟩

/-- A file that was written holds the bytes it was given. -/
theorem content_of_writeFile {u : Unit} (h : Runs (writeFile p b) d (.ok u) d') :
    ∃ id, d'.at? p = some (.file id) ∧ d'.content id = b := by
  obtain ⟨id, d₁, hcreate, happend⟩ := runs_bind_ok.mp h
  obtain ⟨-, d₂, hfile, rfl⟩ := runs_createFile_ok.mp hcreate
  obtain ⟨-, rfl⟩ := runs_append_ok.mp happend
  refine ⟨id, ?_, ?_⟩
  · rw [at?_withContent, Within.at?_later, at?_withContent]
    exact at?_of_withFile hfile
  · rw [content_withContent, if_pos rfl, content_withContent, if_pos rfl, List.nil_append]

theorem exists_checkText_of_place (h : d.place p = .ok q) : ∃ u, checkText p = .ok u := by
  obtain ⟨u, hu, -⟩ := except_bind_eq_ok.mp h
  exact ⟨u, hu⟩

/-- A file can take the place of another one. -/
theorem exists_runs_rename (hq : d.outage = .quiet) (hsource : d.at? source = some (.file id))
    (htarget : d.at? target = some (.file i)) : ∃ d', Runs (rename source target) d (.ok ()) d' := by
  obtain ⟨hplace, -⟩ := at?_eq_some.mp hsource
  obtain ⟨hplace', hnode'⟩ := at?_eq_some.mp htarget
  obtain ⟨u, hu⟩ := exists_checkText_of_place hplace
  obtain ⟨u', hu'⟩ := exists_checkText_of_place hplace'
  refine ⟨{ d with nodes := (d.nodes.erase source.spot).insert target.spot (.file id) },
    runs_change_of_ok hq ?_⟩
  rw [renamed, hu, hu', hplace, fileAt_of_at? hsource, hplace']
  simp only [bind, Except.bind, hnode']

/-- Where a file can be made, one can be removed, or is not there. -/
theorem exists_runs_discardFile (hq : d.outage = .quiet) (h : ∃ r, d.withFile p = .ok r) :
    ∃ x d', Runs (discardFile p) d (.ok x) d' := by
  obtain ⟨hslash, ⟨u, htext⟩, hwalk, hdir⟩ := exists_withFile_iff.mp h
  have hplace : d.place p = .ok p.spot := by
    rw [place_eq hslash, htext]
    exact hwalk
  cases hnode : d.node? p.spot with
  | none =>
    have hnone : Runs (removeFile p) d (.error ⟨.notFound, none⟩) d := by
      rw [removeFile, runs_change_error, later_of_quiet hq, hq, withoutName, hplace]
      simp only [bind, Except.bind, hnode, Outage.quiet_apply, and_self]
    refine ⟨false, d, runs_tryCatch.mpr (.inr ⟨_, d, runs_bind.mpr (.inr ⟨_, hnone, rfl⟩), ?_⟩)⟩
    exact runs_pure.mpr ⟨rfl, rfl⟩
  | some n =>
    cases n with
    | directory => exact absurd hnode hdir
    | file i =>
      have hremove : Runs (removeFile p) d (.ok ()) { d with nodes := d.nodes.erase p.spot } := by
        refine runs_change_of_ok hq ?_
        rw [withoutName, hplace]
        simp only [bind, Except.bind, hnode]
      exact ⟨true, _, runs_tryCatch.mpr (.inl ⟨true,
        runs_bind_ok.mpr ⟨(), _, hremove, runs_pure.mpr ⟨rfl, rfl⟩⟩, rfl⟩)⟩

/-! ## Directories -/

/-- Nothing changed but that directories may have been made where nothing was. -/
structure AddsDirectories (d d' : Disk) : Prop where
  node : ∀ q, d'.node? q = d.node? q ∨ d.node? q = none ∧ d'.node? q = some .directory
  contents : d'.contents = d.contents
  quiet : d.outage = .quiet → d'.outage = .quiet

instance : Frame AddsDirectories where
  refl _ := ⟨fun _ => .inl rfl, rfl, fun hq => hq⟩
  trans h h' := by
    refine ⟨fun q => ?_, h'.contents.trans h.contents, fun hq => h'.quiet (h.quiet hq)⟩
    rcases h.node q with he | ⟨hnone, hdir⟩
    · rw [← he]
      exact h'.node q
    · rcases h'.node q with he' | ⟨hnone', -⟩
      · exact .inr ⟨hnone, he'.trans hdir⟩
      · rw [hdir] at hnone'
        cases hnone'

theorem addsDirectories_makeDirectory : Moves AddsDirectories (makeDirectory p) := by
  refine moves_change (fun d => ⟨fun _ => .inl rfl, rfl, fun hq => by rw [hq]; rfl⟩) fun d d' h => ?_
  rw [withDirectory] at h
  obtain ⟨_, -, h⟩ := except_bind_eq_ok.mp h
  obtain ⟨spot, -, h⟩ := except_bind_eq_ok.mp h
  cases hnode : d.node? spot with
  | some n =>
    rw [hnode] at h
    cases h
  | none =>
    rw [hnode] at h
    cases h
    refine ⟨fun q => ?_, rfl, fun hq => hq⟩
    rw [node?_insert (ne_nil_of_node?_none hnode)]
    by_cases hq : spot = q
    · rw [if_pos hq]
      exact .inr ⟨hq ▸ hnode, rfl⟩
    · rw [if_neg hq]
      exact .inl rfl

theorem addsDirectories_makeDirectories : Moves AddsDirectories (makeDirectories p) :=
  moves_makeDirectories fun _ _ => addsDirectories_makeDirectory

theorem addsDirectories_makeParents : Moves AddsDirectories (makeParents p) := by
  rw [makeParents]
  split
  · exact addsDirectories_makeDirectories
  · exact moves_pure

/-- A path leads to a directory whether or not it ends in a slash. -/
theorem place_eq_ok_of_directory {u : Unit} (htext : checkText p = .ok u)
    (hd : d.node? q = some .directory) : d.place p = .ok q ↔ d.walk [] p.steps = .ok q := by
  have hdot : (p.steps ++ ["."]).filter (· != ".") = p.steps.filter (· != ".") := by
    rw [List.filter_append]
    exact List.append_nil _
  rw [place, htext]
  change d.walk [] (if p.asksDirectory then p.steps ++ ["."] else p.steps) = .ok q ↔ _
  split
  · rw [← walk_filter hd, hdot, walk_filter hd]
  · exact Iff.rfl

theorem isDirectory_of_walk {u : Unit} (htext : checkText p = .ok u)
    (hw : d.walk [] p.steps = .ok q) (hd : d.node? q = some .directory) :
    d.isDirectory p = true := by
  have hplace := (place_eq_ok_of_directory htext hd).mpr hw
  have hspot := place_eq_spot hplace
  subst hspot
  exact isDirectory_iff.mpr (at?_eq_some.mpr ⟨hplace, hd⟩)

theorem isDirectory_mono (h : ∀ q, d.node? q = some .directory → d'.node? q = some .directory)
    (hp : d.isDirectory p = true) : d'.isDirectory p = true := by
  obtain ⟨hplace, hnode⟩ := at?_eq_some.mp (isDirectory_iff.mp hp)
  exact isDirectory_iff.mpr (at?_eq_some.mpr ⟨place_mono h hplace, h _ hnode⟩)

theorem isDirectory_of_makeDirectory {u : Unit} (h : Runs (makeDirectory p) d (.ok u) d') :
    d'.isDirectory p = true := by
  have hmade := (runs_change_ok.mp h).2
  rw [withDirectory] at hmade
  obtain ⟨_, htext, hmade⟩ := except_bind_eq_ok.mp hmade
  obtain ⟨spot, hspot, hmade⟩ := except_bind_eq_ok.mp hmade
  have hgrows := grows_makeDirectory _ _ _ h
  have hwalk : d'.walk [] p.steps = .ok spot :=
    walk_mono (d := { d with outage := d.outage.later }) (fun q => hgrows q .directory) hspot
  refine isDirectory_of_walk htext hwalk ?_
  cases hnode : node? { d with outage := d.outage.later } spot with
  | some n =>
    rw [hnode] at hmade
    cases hmade
  | none =>
    rw [hnode] at hmade
    rw [← Except.ok.inj hmade]
    exact (node?_insert (ne_nil_of_node?_none hnode)).trans (if_pos rfl)

/-- A directory that was to be made is there. -/
theorem isDirectory_of_makeDirectories {u : Unit} (h : Runs (makeDirectories p) d (.ok u) d') :
    p.components = [] ∨ d'.isDirectory p = true := by
  have hlast {d : Disk} {e : IoError}
      (h : Runs (do unless (← get).isDirectory p do throw e : Action IoError Unit) d (.ok ()) d') :
      d'.isDirectory p = true := by
    rw [runs_get_bind] at h
    split at h
    · rename_i hdir
      rw [(runs_pure.mp h).2]
      exact hdir
    · cases (runs_throw.mp h).1
  rw [makeDirectories] at h
  split at h
  · exact .inl ‹_›
  · right
    rw [ancestors, makeDirectoriesFrom] at h
    rcases runs_tryCatch.mp h with ⟨_, hmade, -⟩ | ⟨e, d₁, -, h⟩
    · exact isDirectory_of_makeDirectory hmade
    · split at h
      · obtain ⟨_, d₂, -, h⟩ := runs_bind_ok.mp h
        rcases runs_tryCatch.mp h with ⟨_, hmade, -⟩ | ⟨e', d₃, -, h⟩
        · exact isDirectory_of_makeDirectory hmade
        · exact hlast h
      · exact hlast h

theorem runs_makeDirectories (hq : d.outage = .quiet)
    (h : p.components = [] ∨ d.isDirectory p = true) : Runs (makeDirectories p) d (.ok ()) d := by
  rw [makeDirectories]
  split
  · exact runs_pure.mpr ⟨rfl, rfl⟩
  · rename_i hcomp
    have hdir := h.resolve_left hcomp
    obtain ⟨hplace, hnode⟩ := at?_eq_some.mp (isDirectory_iff.mp hdir)
    obtain ⟨u, htext⟩ := exists_checkText_of_place hplace
    obtain ⟨e, hrefused, hkind⟩ :=
      withDirectory_of_directory hcomp ((place_eq_ok_of_directory htext hnode).mp hplace) hnode
    have hmade : Runs (makeDirectory p) d (.error e) d := by
      rw [makeDirectory, runs_change_error, later_of_quiet hq, hq]
      exact ⟨rfl, hrefused⟩
    rw [ancestors, makeDirectoriesFrom]
    refine runs_tryCatch.mpr (.inr ⟨e, d, hmade, ?_⟩)
    rw [if_neg hkind, runs_get_bind, hdir]
    exact runs_pure.mpr ⟨rfl, rfl⟩

theorem runs_makeParents (hq : d.outage = .quiet)
    (h : ∀ dir, p.parent? = some dir → dir.components = [] ∨ d.isDirectory dir = true) :
    Runs (makeParents p) d (.ok ()) d := by
  rw [makeParents]
  split
  · exact runs_makeDirectories hq (h _ ‹_›)
  · exact runs_pure.mpr ⟨rfl, rfl⟩

theorem eq_of_settle {r : Except IoError Unit} (hq : d.outage = .quiet)
    (h : Runs (settle p) d r d') : d' = d := by
  rw [settle] at h
  split at h
  · exact ((runs_query_quiet hq).mp h).1
  · exact (runs_pure.mp h).2

/-- The directory of a name that is written down can be opened. -/
theorem isDirectory_of_settle {u : Unit}
    (hdir : ∀ dir, p.parent? = some dir →
      ∃ m, d.walk [] dir.steps = .ok m ∧ d.node? m = some .directory)
    (h : Runs (settle p) d (.ok u) d') :
    ∀ dir, p.parent? = some dir → d.isDirectory dir = true := by
  intro dir hp
  obtain ⟨m, hm, hd⟩ := hdir dir hp
  rw [settle, hp] at h
  obtain ⟨-, -, hfind⟩ := runs_query_ok.mp h
  cases hfound : find { d with outage := d.outage.later } dir with
  | error e =>
    rw [hfound] at hfind
    cases hfind
  | ok n =>
    obtain ⟨hplace, -⟩ := at?_eq_some.mp (find_eq_ok.mp hfound)
    obtain ⟨u, htext⟩ := exists_checkText_of_place hplace
    exact isDirectory_of_walk htext hm hd

/-- A name can be written down if the directory it is in can be opened. -/
theorem runs_settle (hq : d.outage = .quiet)
    (h : ∀ dir, p.parent? = some dir → d.isDirectory dir = true) :
    Runs (settle p) d (.ok ()) d := by
  rw [settle]
  split
  · refine (runs_query_quiet hq).mpr ⟨rfl, ?_⟩
    rw [find_eq_ok.mpr (isDirectory_iff.mp (h _ ‹_›))]
    rfl
  · exact runs_pure.mpr ⟨rfl, rfl⟩

end Lineage.Disk
