import Lineage.Proofs.Disk.Parents
import Lineage.Proofs.RecordFile.Frames

/-!
# Open tables

`t.Open d` says that the table `t` is open on the disk `d`: its file is made up of whole frames, and
they come to the rows that it has in memory. Every opening that goes through gives such a table
(`open_of_openAt`), and a change keeps it one (`Open.change`). A file whose whole frames are followed
by nothing but a torn tail is opened, unless it is to be written anew where that cannot be done
(`opens_of_openAt`); it then is as it was, or is written anew all the same.
-/

namespace Lineage.RecordFile

open Disk (Within)

variable {d d' : Disk} {p : Path} {t : RecordFile} {ratio : Nat} {r : Record} {rs : List Record}
  {rows : Rows} {whole tail : Bytes} {id : FileId} {places : Place → Prop}

/-- The file at a path can be written anew: a file can be made beside it, and its directory can be
opened. Neither goes without saying where the file itself is there: the name beside it is a longer
one, or leads up where the name without its extension is two dots, and the directory of a path of
one component is the empty path. -/
structure Renewable (d : Disk) (p : Path) : Prop where
  room : ∃ made, d.withFile (p.withExtension "rewrite.tmp") = .ok made
  housed : ∀ dir, p.parent? = some dir → d.isDirectory dir = true

/-- A table is open on a file that its rows can be replayed from. -/
structure Open (t : RecordFile) (d : Disk) : Prop where
  quiet : d.outage = .quiet
  file : d.at? t.path = some (.file t.file)
  framed : ∃ rs, Framed (d.content t.file) rs ∧ t.rows = rowsOf rs

theorem renewable_within (hw : Within places d d') : Renewable d' p ↔ Renewable d p := by
  have hdirectory (dir : Path) : d'.isDirectory dir = true ↔ d.isDirectory dir = true := by
    rw [Disk.isDirectory_iff, Disk.isDirectory_iff, hw.at?_eq_directory]
  constructor
  · exact fun h => ⟨Disk.exists_withFile (fun _ => hw.directory.symm) h.room,
      fun dir hdir => (hdirectory dir).mp (h.housed dir hdir)⟩
  · exact fun h => ⟨Disk.exists_withFile (fun _ => hw.directory) h.room,
      fun dir hdir => (hdirectory dir).mpr (h.housed dir hdir)⟩

/-- The file of an open table is replayed to its end, and comes to the table's rows. -/
theorem Open.replay (h : t.Open d) : ∃ records, RecordFile.replay t.path (d.content t.file) =
    .ok ⟨t.rows, records, (d.content t.file).length⟩ := by
  obtain ⟨rs, hframed, hrows⟩ := h.framed
  have hreplay := replay_framed (p := t.path) hframed head_nil
  rw [List.append_nil, ← hrows] at hreplay
  exact ⟨rs.length, hreplay⟩

theorem Open.rowsFit (h : t.Open d) : RowsFit t.rows := by
  obtain ⟨rs, hframed, hrows⟩ := h.framed
  rw [hrows]
  exact rowsFit_rowsOf hframed.fits

/-! ## Writing anew -/

theorem moves_renew {rows : Rows} :
    Moves (Within fun q => q = (p.withExtension "rewrite.tmp").spot ∨ q = p.spot) (renew p rows) := by
  have hwrite (b : Bytes) : Moves (Within fun q => q = (p.withExtension "rewrite.tmp").spot ∨
      q = p.spot) (Disk.writeFile (p.withExtension "rewrite.tmp") b) :=
    fun d r d' h => (Disk.moves_writeFile d r d' h).mono fun _ => .inl
  rw [renew]
  exact moves_bind (hwrite _) fun _ => moves_bind Disk.moves_rename fun _ => Disk.moves_settle

theorem moves_refresh {s : Replayed} {size : Nat} :
    Moves (Within fun q => q = (p.withExtension "rewrite.tmp").spot ∨ q = p.spot)
      (refresh p s size ratio) := by
  rw [refresh]
  split
  · exact moves_renew
  · exact moves_pure

/-- How it ends where a file was to be written anew and nothing fails. -/
inductive Renewed (p : Path) (rows : Rows) (d d' : Disk) : Except IoError Unit → Prop where
  | done (renewable : Renewable d p)
      (held : ∃ id, d'.at? p = some (.file id) ∧ d'.content id = snapshot rows) :
      Renewed p rows d d' (.ok ())
  /-- The new file has its place, and its directory is not opened. -/
  | unsettled {e : IoError} (stuck : ¬ Renewable d p)
      (held : ∃ id, d'.at? p = some (.file id) ∧ d'.content id = snapshot rows) :
      Renewed p rows d d' (.error e)
  /-- No file is made beside the old one. -/
  | refused {e : IoError} (stuck : ¬ Renewable d p) (same : d' = d) : Renewed p rows d d' (.error e)

/-- Where a file was made at one path, another one that led to a file still does. -/
theorem exists_file_of_within {q : Path} {i : FileId} (hw : Within (· = q.spot) d d')
    (hmade : d'.at? q = some (.file i)) (hfile : d.at? p = some (.file id)) :
    ∃ j, d'.at? p = some (.file j) := by
  obtain ⟨hplace, hnode⟩ := Disk.at?_eq_some.mp hfile
  rcases hw.node p.spot with hsame | ⟨hspot, -, -⟩
  · exact ⟨id, Disk.at?_eq_some.mpr ⟨hw.place.mpr hplace, hsame.trans hnode⟩⟩
  · refine ⟨i, Disk.at?_eq_some.mpr ⟨hw.place.mpr hplace, ?_⟩⟩
    rw [hspot]
    exact (Disk.at?_eq_some.mp hmade).2

/-- Where no file can be made beside it, a file stays as it is. -/
theorem runs_renew_of_error {e : IoError} (hq : d.outage = .quiet)
    (hmade : d.withFile (p.withExtension "rewrite.tmp") = .error e) :
    Runs (renew p rows) d (.error e) d := by
  have hcreate : Runs (Disk.createFile (p.withExtension "rewrite.tmp")) d (.error e) d :=
    runs_bind.mpr (.inr ⟨e, (Disk.runs_query_quiet hq).mpr ⟨rfl, hmade.symm⟩, rfl⟩)
  have hwrite : Runs (Disk.writeFile (p.withExtension "rewrite.tmp") (snapshot rows)) d
      (.error e) d := (runs_bind_of_error hcreate).mpr ⟨rfl, rfl⟩
  exact (runs_bind_of_error hwrite).mpr ⟨rfl, rfl⟩

/-- Where a file can be made beside it, the new file takes the place of the old one, and all that is
left is to write down its name. -/
theorem exists_renamed {made : FileId × Disk} (rows : Rows) (hq : d.outage = .quiet)
    (hfile : d.at? p = some (.file id))
    (hmade : d.withFile (p.withExtension "rewrite.tmp") = .ok made) :
    ∃ d₁, d₁.outage = .quiet ∧
      Within (fun q => q = (p.withExtension "rewrite.tmp").spot ∨ q = p.spot) d d₁ ∧
      (∃ i, d₁.at? p = some (.file i) ∧ d₁.content i = snapshot rows) ∧
      ∀ r d', Runs (renew p rows) d r d' ↔ Runs (Disk.settle p) d₁ r d' := by
  obtain ⟨d₁, hwrite⟩ := Disk.exists_runs_writeFile (b := snapshot rows) hq ⟨made, hmade⟩
  have hw := Disk.moves_writeFile _ _ _ hwrite
  have hq₁ := hw.quiet hq
  obtain ⟨i, hfresh, hcontent⟩ := Disk.content_of_writeFile hwrite
  obtain ⟨j, hold⟩ := exists_file_of_within hw hfresh hfile
  obtain ⟨d₂, hrename⟩ := Disk.exists_runs_rename hq₁ hfresh hold
  have hw₂ := Disk.moves_rename _ _ _ hrename
  obtain ⟨k, hk, hp, hcontents⟩ := Disk.at?_of_rename hrename
  cases hk.symm.trans hfresh
  refine ⟨d₂, hw₂.quiet hq₁, Frame.trans (hw.mono fun _ => .inl) hw₂, ⟨i, hp, ?_⟩, fun r d' => ?_⟩
  · rw [Disk.content, hcontents, ← Disk.content, hcontent]
  · rw [renew, runs_bind_of_ok hwrite, runs_bind_of_ok hrename]

theorem renewed_of_renew {r : Except IoError Unit} (hq : d.outage = .quiet)
    (hfile : d.at? p = some (.file id)) (h : Runs (renew p rows) d r d') :
    Renewed p rows d d' r := by
  cases hmade : d.withFile (p.withExtension "rewrite.tmp") with
  | error e =>
    cases (runs_renew_of_error hq hmade).symm.trans h
    refine .refused (fun hr => ?_) rfl
    obtain ⟨made, hroom⟩ := hr.room
    cases hroom.symm.trans hmade
  | ok made =>
    obtain ⟨d₁, hq₁, hw, held, hrenew⟩ := exists_renamed rows hq hfile hmade
    have hsettle := (hrenew r d').mp h
    cases Disk.eq_of_settle hq₁ hsettle
    cases r with
    | ok u =>
      refine .done ⟨⟨made, hmade⟩, fun dir hdir => ?_⟩ held
      obtain ⟨i, hp, -⟩ := held
      have hthere :=
        Disk.isDirectory_of_settle (fun _ => Disk.walk_parent_of_file hp) hsettle dir hdir
      rwa [Disk.isDirectory_iff, hw.at?_eq_directory, ← Disk.isDirectory_iff] at hthere
    | error e =>
      refine .unsettled (fun hr => ?_) held
      have hhoused := ((renewable_within hw).mpr hr).housed
      cases (Disk.runs_settle hq₁ hhoused).symm.trans hsettle

/-! ## Opening -/

/-- The bytes that are read: those of the file, or none where there is no file. -/
theorem readIfPresent_ok {b : Bytes} (hq : d.outage = .quiet)
    (h : Runs (readIfPresent p) d (.ok b) d') :
    d' = d ∧ ((∃ id, d.at? p = some (.file id) ∧ b = d.content id) ∨
      (∀ id, d.at? p ≠ some (.file id)) ∧ b = []) := by
  rw [readIfPresent] at h
  rcases runs_tryCatch.mp h with ⟨b', hread, hb⟩ | ⟨e, d₁, hread, hcatch⟩
  · obtain ⟨rfl, hbytes⟩ := (Disk.runs_query_quiet hq).mp hread
    cases hb
    cases hfile : d'.fileAt p with
    | error e =>
      rw [Disk.bytesAt, hfile] at hbytes
      cases hbytes
    | ok id =>
      rw [Disk.bytesAt, hfile] at hbytes
      exact ⟨rfl, .inl ⟨id, Disk.fileAt_eq_ok hfile, Except.ok.inj hbytes⟩⟩
  · obtain ⟨rfl, hbytes⟩ := (Disk.runs_query_quiet hq).mp hread
    split at hcatch
    · obtain ⟨hb, rfl⟩ := runs_pure.mp hcatch
      refine ⟨rfl, .inr ⟨fun id hid => ?_, Except.ok.inj hb⟩⟩
      rw [Disk.bytesAt_eq hid] at hbytes
      cases hbytes
    · cases (runs_throw.mp hcatch).1

theorem runs_readIfPresent (hq : d.outage = .quiet) (hfile : d.at? p = some (.file id)) :
    Runs (readIfPresent p) d (.ok (d.content id)) d := by
  rw [readIfPresent]
  refine runs_tryCatch.mpr (.inl ⟨_, (Disk.runs_query_quiet hq).mpr ⟨rfl, ?_⟩, rfl⟩)
  rw [Disk.bytesAt_eq hfile]

theorem runs_openAt : Runs (openAt p ratio) d (.ok t) d' ↔
    ∃ d₁ d₂ d₃ b s, Runs (Disk.makeParents p) d (.ok ()) d₁ ∧ Runs (readIfPresent p) d₁ (.ok b) d₂ ∧
      replay p b = .ok s ∧ Runs (refresh p s b.length ratio) d₂ (.ok ()) d₃ ∧
      Runs (Disk.openFile p) d₃ (.ok t.file) d' ∧ t.path = p ∧ t.rows = s.rows := by
  simp only [openAt, runs_bind_ok, runs_adapt_ok, runs_ofExcept, runs_pure]
  constructor
  · rintro ⟨_, d₁, hdirs, b, d₂, hread, s, _, ⟨hreplay, rfl⟩, _, d₃, hrefresh, id, d₄, hopen, ht, rfl⟩
    cases ht
    exact ⟨d₁, _, d₃, b, s, hdirs, hread, hreplay.symm, hrefresh, hopen, rfl, rfl⟩
  · rintro ⟨d₁, d₂, d₃, b, s, hdirs, hread, hreplay, hrefresh, hopen, hpath, hrows⟩
    refine ⟨(), d₁, hdirs, b, d₂, hread, s, d₂, ⟨hreplay.symm, rfl⟩, (), d₃, hrefresh, t.file, d',
      hopen, ?_, rfl⟩
    rw [← hpath, ← hrows]

theorem runs_openAt_of_replay {s : Replayed} {x : Except TableError RecordFile}
    (hq : d.outage = .quiet) (hfile : d.at? p = some (.file id))
    (hreplay : replay p (d.content id) = .ok s) : Runs (openAt p ratio) d x d' ↔
      Runs (do
        ExceptT.adapt .io (refresh p s (d.content id).length ratio)
        let file ← ExceptT.adapt .io (Disk.openFile p)
        return { path := p, file, rows := s.rows }) d x d' := by
  rw [openAt, runs_bind_of_ok (runs_adapt_ok.mpr (Disk.runs_makeParents_of_file hq hfile)),
    runs_bind_of_ok (runs_adapt_ok.mpr (runs_readIfPresent hq hfile)), hreplay]
  exact Iff.rfl

/-- A file that is not replayed is not opened, and nothing is done to it. -/
theorem runs_openAt_error {e : TableError} (hq : d.outage = .quiet)
    (hfile : d.at? p = some (.file id)) (hreplay : replay p (d.content id) = .error e) :
    Runs (openAt p ratio) d (.error e) d := by
  rw [openAt, runs_bind_of_ok (runs_adapt_ok.mpr (Disk.runs_makeParents_of_file hq hfile)),
    runs_bind_of_ok (runs_adapt_ok.mpr (runs_readIfPresent hq hfile)), hreplay]
  exact runs_throw.mpr ⟨rfl, rfl⟩

theorem open_of_snapshot (hq : d.outage = .quiet) (hfits : RowsFit rows)
    (hfile : d.at? p = some (.file id)) (hcontent : d.content id = snapshot rows) :
    Open ⟨p, id, rows⟩ d where
  quiet := hq
  file := hfile
  framed := ⟨recordsOf rows, hcontent ▸ framed_snapshot hfits, rowsOf_recordsOf.symm⟩

/-- A file that was written anew is opened with its rows. -/
theorem open_of_renew {d₁ : Disk} {u : Unit} {i : FileId} (hq : d.outage = .quiet)
    (hfits : RowsFit rows) (hfile : d.at? p = some (.file id))
    (hrenew : Runs (renew p rows) d (.ok u) d₁) (hopen : Runs (Disk.openFile p) d₁ (.ok i) d') :
    Open ⟨p, i, rows⟩ d' := by
  have hq₁ := (moves_renew _ _ _ hrenew).quiet hq
  cases renewed_of_renew hq hfile hrenew with
  | done _ held =>
    obtain ⟨j, hj, hcontent⟩ := held
    have hmade := (Disk.runs_openFile_quiet hq₁).mp hopen
    rw [Disk.withFile_of_file hj] at hmade
    cases hmade
    exact open_of_snapshot hq₁ hfits hj hcontent

/-- The file that is opened holds what was read at its path: it is the same one, or a new one where
there was none. -/
theorem content_of_openFile {b : Bytes} {i : FileId} (hq : d.outage = .quiet)
    (hread : (∃ id, d.at? p = some (.file id) ∧ b = d.content id) ∨
      (∀ id, d.at? p ≠ some (.file id)) ∧ b = [])
    (hopen : Runs (Disk.openFile p) d (.ok i) d') :
    d'.outage = .quiet ∧ d'.at? p = some (.file i) ∧ d'.content i = b := by
  have hmade := (Disk.runs_openFile_quiet hq).mp hopen
  have hfile := Disk.at?_of_withFile hmade
  refine ⟨(Disk.withFile_eq_ok hmade).quiet hq, hfile, ?_⟩
  obtain ⟨-, -, -, ⟨-, rfl⟩ | ⟨hnone, hnew, hmade'⟩⟩ := Disk.withFile_spec hmade
  · rcases hread with ⟨id, hid, rfl⟩ | ⟨hno, -⟩
    · cases hid.symm.trans hfile
      rfl
    · exact absurd hfile (hno _)
  · rcases hread with ⟨id, hid, -⟩ | ⟨-, rfl⟩
    · rw [(Disk.at?_eq_some.mp hid).2] at hnone
      cases hnone
    · rw [hmade', hnew]
      exact Disk.content_withContent.trans (if_pos rfl)

/-- A table that was opened is open. -/
theorem open_of_openAt (hq : d.outage = .quiet) (h : Runs (openAt p ratio) d (.ok t) d') :
    t.Open d' := by
  obtain ⟨d₁, d₂, d₃, b, s, hdirs, hread, hreplay, hrefresh, hopen, rfl, hrows⟩ :=
    runs_openAt.mp h
  have hq₁ := (Disk.addsDirectories_makeParents _ _ _ hdirs).quiet hq
  obtain ⟨rfl, hb⟩ := readIfPresent_ok hq₁ hread
  obtain ⟨whole, tail, rs, rfl, hframed, -, rfl⟩ := framed_of_replay hreplay
  rw [refresh] at hrefresh
  split at hrefresh
  · rename_i hstale
    rcases hb with ⟨id, hfile, -⟩ | ⟨-, hempty⟩
    · have ho := open_of_renew hq₁ (rowsFit_rowsOf hframed.fits) hfile hrefresh hopen
      have hrows : t.rows = rowsOf rs := hrows
      rwa [← hrows] at ho
    · -- There is nothing to write anew where there was no file.
      obtain ⟨rfl, rfl⟩ := List.append_eq_nil_iff.mp hempty
      cases hframed with
      | nil => simp [stale] at hstale
      | cons front => cases head_nil.symm.trans front
  · -- The file has no torn end.
    rename_i hfresh
    obtain ⟨-, rfl⟩ := runs_pure.mp hrefresh
    have htail : tail = [] := by
      rw [stale, decide_eq_true_eq, not_or, Nat.not_lt, List.length_append] at hfresh
      exact List.length_eq_zero_iff.mp (Nat.le_zero.mp (Nat.le_of_add_le_add_left hfresh.1))
    rw [htail, List.append_nil] at hb
    obtain ⟨hq', hfile, hcontent⟩ := content_of_openFile hq₁ hb hopen
    exact ⟨hq', hfile, rs, hcontent ▸ hframed, hrows⟩

/-- If the file at a path is to be written anew when it is opened, it can be. -/
def Ready (d : Disk) (p : Path) (ratio : Nat) : Prop :=
  ∀ b s, d.bytesAt p = .ok b → replay p b = .ok s → stale s b.length ratio = true → Renewable d p

theorem Renewable.ready (h : Renewable d p) (ratio : Nat) : Ready d p ratio := fun _ _ _ _ _ => h

theorem ready_iff {s : Replayed} (hfile : d.at? p = some (.file id))
    (hreplay : replay p (d.content id) = .ok s) :
    Ready d p ratio ↔ (stale s (d.content id).length ratio = true → Renewable d p) := by
  constructor
  · exact fun h => h _ s (Disk.bytesAt_eq hfile) hreplay
  · intro h b s' hb hs'
    cases (Disk.bytesAt_eq hfile).symm.trans hb
    cases hreplay.symm.trans hs'
    exact h

/-- How an opening ends of a file of whole frames, with or without a torn tail, where nothing
fails. -/
inductive Opens (p : Path) (rows : Rows) (ratio : Nat) (d d' : Disk) :
    Except TableError RecordFile → Prop where
  | opened {t : RecordFile} (ready : Ready d p ratio) (path : t.path = p) (same : t.rows = rows)
      (table : t.Open d') : Opens p rows ratio d d' (.ok t)
  /-- The file was written anew, and is not opened. -/
  | renewed {e : IoError} (stuck : ¬ Ready d p ratio) (held : ∃ id, Open ⟨p, id, rows⟩ d') :
      Opens p rows ratio d d' (.error (.io e))
  | refused {e : IoError} (stuck : ¬ Ready d p ratio) (same : d' = d) :
      Opens p rows ratio d d' (.error (.io e))

/-- A file of whole frames, with or without a torn tail, is opened with the rows that the frames
come to, if it can be written anew where it is to be. -/
theorem opens_of_openAt {x : Except TableError RecordFile} (hq : d.outage = .quiet)
    (hfile : d.at? p = some (.file id)) (hcontent : d.content id = whole ++ tail)
    (hframed : Framed whole rs) (htail : head tail = .torn) (h : Runs (openAt p ratio) d x d') :
    Opens p (rowsOf rs) ratio d d' x := by
  have hreplay := replay_framed (p := p) hframed htail
  rw [← hcontent] at hreplay
  have hready : Ready d p ratio ↔ _ := ready_iff hfile hreplay
  have hfits := rowsFit_rowsOf hframed.fits
  have hrun := h
  rw [runs_openAt_of_replay hq hfile hreplay, refresh] at h
  have hopened {d₁ : Disk} {i : FileId} (hq₁ : d₁.outage = .quiet) (hi : d₁.at? p = some (.file i)) :
      Runs (Disk.openFile p) d₁ (.ok i) d₁ :=
    (Disk.runs_openFile_quiet hq₁).mpr (Disk.withFile_of_file hi)
  split at h
  · rename_i hstale
    obtain ⟨y, d₁, hrenew⟩ := exists_runs (renew p (rowsOf rs)) d
    have hq₁ := (moves_renew _ _ _ hrenew).quiet hq
    cases renewed_of_renew hq hfile hrenew with
    | done renewable held =>
      obtain ⟨i, hi, hnew⟩ := held
      rw [runs_bind_of_ok (runs_adapt_ok.mpr hrenew),
        runs_bind_of_ok (runs_adapt_ok.mpr (hopened hq₁ hi))] at h
      obtain ⟨rfl, rfl⟩ := runs_pure.mp h
      exact .opened (renewable.ready ratio) rfl rfl (open_of_snapshot hq₁ hfits hi hnew)
    | unsettled stuck held =>
      obtain ⟨i, hi, hnew⟩ := held
      obtain ⟨rfl, rfl⟩ := (runs_bind_of_error (runs_adapt_error.mpr ⟨_, hrenew, rfl⟩)).mp h
      exact .renewed (fun hr => stuck (hready.mp hr hstale))
        ⟨i, open_of_snapshot hq₁ hfits hi hnew⟩
    | refused stuck same =>
      obtain ⟨rfl, rfl⟩ := (runs_bind_of_error (runs_adapt_error.mpr ⟨_, hrenew, rfl⟩)).mp h
      exact .refused (fun hr => stuck (hready.mp hr hstale)) same
  · rename_i hfresh
    rw [runs_bind_of_ok (runs_adapt_ok.mpr (runs_pure.mpr ⟨rfl, rfl⟩)),
      runs_bind_of_ok (runs_adapt_ok.mpr (hopened hq hfile))] at h
    obtain ⟨rfl, rfl⟩ := runs_pure.mp h
    exact .opened (hready.mpr fun hstale => absurd hstale hfresh) rfl rfl (open_of_openAt hq hrun)

/-- An opening changes nothing but what is at the path and beside it, where the file is there. -/
theorem within_of_openAt {x : Except TableError RecordFile} (hq : d.outage = .quiet)
    (hfile : d.at? p = some (.file id)) (h : Runs (openAt p ratio) d x d') :
    Within (fun q => q = (p.withExtension "rewrite.tmp").spot ∨ q = p.spot) d d' := by
  cases hreplay : replay p (d.content id) with
  | error e =>
    cases (runs_openAt_error hq hfile hreplay).symm.trans h
    exact Frame.refl d
  | ok s =>
    rw [runs_openAt_of_replay hq hfile hreplay] at h
    have hopen : Moves (Within fun q => q = (p.withExtension "rewrite.tmp").spot ∨ q = p.spot)
        (Disk.openFile p) := fun d r d' h => (Disk.moves_openFile d r d' h).mono fun _ => .inr
    refine moves_bind (moves_adapt moves_refresh) (fun _ => ?_) d x d' h
    exact moves_bind (moves_adapt hopen) fun _ => moves_pure

/-- A file of whole frames, with or without a torn tail, that can be written anew is opened with the
rows that the frames come to. -/
theorem exists_runs_openAt (hq : d.outage = .quiet) (hr : Ready d p ratio)
    (hfile : d.at? p = some (.file id)) (hcontent : d.content id = whole ++ tail)
    (hframed : Framed whole rs) (htail : head tail = .torn) :
    ∃ t d', Runs (openAt p ratio) d (.ok t) d' ∧ t.path = p ∧ t.rows = rowsOf rs ∧ t.Open d' := by
  obtain ⟨x, d', hrun⟩ := exists_runs (openAt p ratio) d
  cases opens_of_openAt hq hfile hcontent hframed htail hrun with
  | opened _ path same table => exact ⟨_, d', hrun, path, same, table⟩
  | renewed stuck => exact absurd hr stuck
  | refused stuck => exact absurd hr stuck

/-- An open table is opened anew with the rows it has, unless its file is to be written anew and
cannot be; then its file is still one that comes to these rows. -/
theorem Open.opens {x : Except TableError RecordFile} (h : t.Open d)
    (hrun : Runs (openAt t.path ratio) d x d') : Opens t.path t.rows ratio d d' x := by
  obtain ⟨rs, hframed, hrows⟩ := h.framed
  rw [hrows]
  exact opens_of_openAt h.quiet h.file (List.append_nil _).symm hframed head_nil hrun

theorem Open.reopen (h : t.Open d) (hr : Ready d t.path ratio) :
    ∃ t' d', Runs (openAt t.path ratio) d (.ok t') d' ∧ t'.path = t.path ∧ t'.rows = t.rows ∧
      t'.Open d' := by
  obtain ⟨rs, hframed, hrows⟩ := h.framed
  rw [hrows]
  exact exists_runs_openAt h.quiet hr h.file (List.append_nil _).symm hframed head_nil

/-- The file at a path is replayed to its end and comes to some rows, with which it is opened unless
it is to be written anew and cannot be. -/
structure Kept (p : Path) (d : Disk) (rows : Rows) : Prop where
  replayed : ∃ b s, d.bytesAt p = .ok b ∧ replay p b = .ok s ∧ s.length = b.length ∧ s.rows = rows
  opens : ∀ ratio, (∃ t d', Runs (openAt p ratio) d (.ok t) d') ↔ Ready d p ratio
  shows : ∀ ratio t d', Runs (openAt p ratio) d (.ok t) d' → t.rows = rows

theorem Open.kept (h : t.Open d) : Kept t.path d t.rows := by
  obtain ⟨records, hreplay⟩ := h.replay
  refine ⟨⟨_, _, Disk.bytesAt_eq h.file, hreplay, rfl, rfl⟩, fun ratio => ⟨?_, fun hr => ?_⟩,
    fun ratio t' d' hrun => ?_⟩
  · rintro ⟨t', d', hrun⟩
    cases h.opens hrun with
    | opened ready => exact ready
  · obtain ⟨t', d', hrun, -⟩ := h.reopen hr
    exact ⟨t', d', hrun⟩
  · cases h.opens hrun with
    | opened _ _ same => exact same

/-! ## Changes -/

theorem runs_change (hq : d.outage = .quiet) :
    Runs (t.change r) d (.ok { t with rows := r.applyTo t.rows })
      (d.withContent t.file (d.content t.file ++ r.frame)) :=
  runs_bind_ok.mpr ⟨(), _, runs_adapt_ok.mpr ((Disk.runs_append_quiet hq).mpr ⟨rfl, rfl⟩),
    runs_pure.mpr ⟨rfl, rfl⟩⟩

/-- A change makes and removes nothing. -/
theorem moves_change : Moves (Within places) (t.change r) :=
  moves_bind (moves_adapt Disk.moves_append) fun _ => moves_pure

theorem moves_delete {key : Bytes} : Moves (Within places) (t.delete key) := by
  rw [RecordFile.delete]
  split
  · exact moves_change
  · exact moves_pure

/-- A change of an open table goes through and leaves it open. -/
theorem Open.change (h : t.Open d) (hr : r.Fits) :
    ∃ d', Runs (t.change r) d (.ok { t with rows := r.applyTo t.rows }) d' ∧
      Open { t with rows := r.applyTo t.rows } d' := by
  obtain ⟨rs, hframed, hrows⟩ := h.framed
  have hw : Within (fun _ => False) d (d.withContent t.file (d.content t.file ++ r.frame)) :=
    .content rfl rfl
  refine ⟨_, runs_change h.quiet, hw.quiet h.quiet, ?_, rs ++ [r], ?_, ?_⟩
  · rw [Disk.at?_withContent]
    exact h.file
  · rw [Disk.content_withContent, if_pos rfl]
    exact hframed.append (framed_frame hr)
  · rw [rowsOf, List.foldl_append, hrows]
    rfl

theorem Open.put {key value : Bytes} (h : t.Open d) (hr : (Record.put key value).Fits) :
    ∃ d', Runs (t.put key value) d (.ok { t with rows := t.rows.insert key value }) d' ∧
      Open { t with rows := t.rows.insert key value } d' :=
  h.change hr

/-- Deleting a row that is not there changes nothing. -/
theorem Open.delete (h : t.Open d) (key : Bytes) :
    ∃ d', Runs (t.delete key) d (.ok { t with rows := t.rows.erase key }) d' ∧
      Open { t with rows := t.rows.erase key } d' := by
  rw [RecordFile.delete]
  split
  · rename_i hkey
    obtain ⟨v, hv⟩ := Option.isSome_iff_exists.mp
      (Std.ExtTreeMap.isSome_getElem?_iff_mem.mpr (Std.ExtTreeMap.contains_iff_mem.mp hkey))
    exact h.change (h.rowsFit key v hv).delete
  · rename_i hkey
    have hrows : t.rows.erase key = t.rows := erase_eq_self hkey
    exact ⟨d, runs_pure.mpr ⟨by rw [hrows], rfl⟩, by rwa [hrows]⟩

end Lineage.RecordFile
