import Lineage.Proofs.Disk.Scratch
import Lineage.Proofs.Migration.Runs
import Lineage.Proofs.SortedTable.Restripping
import Lineage.Proofs.Upkeep

/-!
# Stripping one backup

However the stripping of a backup ends, the backup is as it was, or it is the whole stripped copy of
what it was; no other file has changed but the scratch file (`restrips_stripBackup`). It goes
through if the backup can be stripped and the disk admits it (`exists_stripBackup`). The name of the
table may be any, with slashes in it or without, as long as the backup directory is there.
-/

namespace Lineage

/-! ## Tables -/

/-- A file can be made at a path, in a directory that is there. -/
structure Disk.Takes (d : Disk) (p : Path) : Prop where
  parents : ∀ dir, p.parent? = some dir → dir.components = [] ∨ d.isDirectory dir = true
  file : ∃ r, d.withFile p = .ok r

theorem Disk.Takes.of_directories {d d' : Disk} {p : Path} (h : d.Takes p)
    (hd : ∀ q, d'.node? q = some .directory ↔ d.node? q = some .directory) : d'.Takes p where
  parents dir hp := (h.parents dir hp).imp_right (isDirectory_mono fun q => (hd q).mpr)
  file := exists_withFile hd h.file

theorem Disk.Takes.accepts {d : Disk} {p : Path} (hq : d.outage = .quiet) (h : d.Takes p) :
    d.Accepts p := by
  obtain ⟨made, hmade⟩ := h.file
  exact ⟨d, made, runs_makeParents hq h.parents, hmade⟩

namespace SortedTable

variable {d d' : Disk} {source target p : Path} {size : Nat} {b : Bytes}

theorem fixes_load : Moves (Fixes Disk.calm) (load p) :=
  moves_bind (moves_adapt Disk.fixes_query) fun _ => moves_ofExcept

/-- A table is stored in a directory that is there by writing its file and nothing else. -/
theorem supplants_store {r : Except Error Unit}
    (hdir : ∀ dir, p.parent? = some dir →
      ∃ m, d.walk [] dir.steps = .ok m ∧ d.node? m = some .directory)
    (h : Runs (store p b) d r d') : Disk.Supplants p.spot (· = p.spot) (fun _ => False) d d' ∧
      ∀ u, r = .ok u → d.Takes p ∧ ∃ id, d'.at? p = some (.file id) ∧ d'.content id = b := by
  have hparents {r : Except IoError Unit} {d₁ : Disk} (h : Runs (Disk.makeParents p) d r d₁) :
      Fixes Disk.calm d d₁ ∧ ∀ u, r = .ok u → ∀ dir, p.parent? = some dir →
        dir.components = [] ∨ d.isDirectory dir = true := by
    rw [Disk.makeParents] at h
    split at h
    · rename_i dir hp
      obtain ⟨m, hm, hd⟩ := hdir dir hp
      have hcalm := Disk.fixes_makeDirectories hm hd h
      refine ⟨hcalm, fun u hr dir' hp' => ?_⟩
      cases hp.symm.trans hp'
      subst hr
      exact (Disk.isDirectory_of_makeDirectories h).imp_right
        (Disk.isDirectory_mono fun q hq => (Disk.node?_of_calm hcalm).symm.trans hq)
    · rename_i hp
      rw [(runs_pure.mp h).2]
      exact ⟨rfl, fun _ _ dir hp' => absurd hp' (hp dir)⟩
  have hstored {r : Except IoError Unit} (h : Runs (do
      Disk.makeParents p
      Disk.writeFile p b) d r d') : Disk.Supplants p.spot (· = p.spot) (fun _ => False) d d' ∧
      ∀ u, r = .ok u → d.Takes p ∧ ∃ id, d'.at? p = some (.file id) ∧ d'.content id = b := by
    rcases runs_bind.mp h with ⟨_, d₁, hmade, hwrite⟩ | ⟨e, hmade, rfl⟩
    · obtain ⟨hcalm, hdirs⟩ := hparents hmade
      have hwritten : Disk.Supplants p.spot (· = p.spot) (fun _ => False) d₁ d' :=
        Disk.supplants_writeFile _ _ _ hwrite
      refine ⟨Frame.trans (.of_fixes hcalm) hwritten, fun u hr => ?_⟩
      subst hr
      obtain ⟨id, d₂, hcreate, -⟩ := runs_bind_ok.mp hwrite
      obtain ⟨-, d₃, hfile, -⟩ := Disk.runs_createFile_ok.mp hcreate
      refine ⟨⟨hdirs _ rfl, Disk.exists_withFile (fun q => ?_) ⟨_, hfile⟩⟩,
        Disk.content_of_writeFile hwrite⟩
      exact iff_of_eq (congrArg (· = _) (Disk.node?_of_calm hcalm).symm)
    · exact ⟨.of_fixes (hparents hmade).1, fun u hr => by cases hr⟩
  cases r with
  | ok u => exact (hstored (runs_adapt_ok.mp h)).imp_right fun hok _ _ => hok u rfl
  | error e =>
    obtain ⟨e₀, h, -⟩ := runs_adapt_error.mp h
    exact ⟨(hstored h).1, fun u hr => by cases hr⟩

/-- Stripping writes nothing but its target, and if it goes through this is the whole copy. -/
theorem supplants_stripFile {r : Except Error Stripped}
    (hdir : ∀ dir, target.parent? = some dir →
      ∃ m, d.walk [] dir.steps = .ok m ∧ d.node? m = some .directory)
    (h : Runs (stripFile source target size) d r d') :
    Disk.Supplants target.spot (· = target.spot) (fun _ => False) d d' ∧ ∀ s, r = .ok s →
      d.Takes target ∧ ∃ reader b id, d.Reads source reader ∧ strip reader size = (b, .ok s) ∧
        d'.at? target = some (.file id) ∧ d'.content id = b := by
  rcases runs_bind.mp h with ⟨reader, d₁, hload, h⟩ | ⟨e, hload, rfl⟩
  · have hcalm := fixes_load _ _ _ hload
    have hsame : ∀ q, d₁.node? q = d.node? q := fun q => Disk.node?_of_calm hcalm
    have hdir' : ∀ dir, target.parent? = some dir →
        ∃ m, d₁.walk [] dir.steps = .ok m ∧ d₁.node? m = some .directory := by
      intro dir hp
      obtain ⟨m, hm, hd⟩ := hdir dir hp
      exact ⟨m, Disk.walk_mono (fun q hq => (hsame q).trans hq) hm, (hsame m).trans hd⟩
    dsimp only at h
    rcases runs_bind.mp h with ⟨u, d₂, hstore, h⟩ | ⟨e, hstore, rfl⟩
    · obtain ⟨hs, rfl⟩ := runs_ofExcept.mp h
      obtain ⟨hstored, hok⟩ := supplants_store hdir' hstore
      obtain ⟨htakes, id, hat, hcontent⟩ := hok u rfl
      refine ⟨Frame.trans (.of_fixes hcalm) hstored, fun s hr => ?_⟩
      refine ⟨htakes.of_directories fun q => by rw [hsame], reader, _, id, (reads_of_load hload).1,
        Prod.ext rfl (hs.symm.trans hr), hat, hcontent⟩
    · exact ⟨Frame.trans (.of_fixes hcalm) (supplants_store hdir' hstore).1,
        fun s hr => by cases hr⟩
  · exact ⟨.of_fixes (fixes_load _ _ _ hload), fun s hr => by cases hr⟩

end SortedTable

/-- What is done on the disk, and whether it goes through. -/
theorem World.exists_of_discard {ε ε' α : Type} {wrap : ε → ε'} {a : Disk.Action ε α}
    {w w' : World} {r : Except ε' PUnit} (h : Runs (discard (World.onDisk wrap a)) w r w') :
    ∃ r₀ d, Runs a w.disk r₀ d ∧ w' = { w with host := { w.host with disk := d } } ∧
      ∀ u, r = .ok u → ∃ x, r₀ = .ok x := by
  cases r with
  | ok u =>
    obtain ⟨x, h⟩ := runs_discard_ok.mp h
    obtain ⟨d, hd, rfl⟩ := World.runs_onDisk_ok.mp h
    exact ⟨_, d, hd, rfl, fun _ _ => ⟨x, rfl⟩⟩
  | error e =>
    rw [discard, map_const, Function.comp_apply, runs_map_error] at h
    obtain ⟨r₀, d, hd, -, rfl⟩ := World.runs_onDisk.mp h
    exact ⟨r₀, d, hd, rfl, fun u hu => by cases hu⟩

namespace Tracker

open World (onDisk onHost update)

variable {w w' : World} {n : String} {b b' : Bytes}

/-! ## Backups -/

/-- The bytes that the backup of a table is stripped to. -/
def StripsTo (w : World) (n : String) (b : Bytes) : Prop :=
  ∃ r s, w.disk.Reads (w.tracker.backupPath n) r ∧
    SortedTable.strip r w.tracker.options.stripBlockSize = (b, .ok s)

/-- The disk lets the backup of a table be replaced. -/
structure Admits (w : World) (n : String) : Prop where
  takes : w.disk.Takes w.tracker.scratchPath
  housed : ∀ dir, (w.tracker.backupPath n).parent? = some dir → w.disk.isDirectory dir = true

/-- A place that stripping may fill: that of the scratch file, or of a backup. -/
def MayFill (t : Tracker) (q : Place) : Prop :=
  q = t.scratchPath.spot ∨ ∃ n, q = (t.backupPath n).spot

/-- The numbers of all files are in use. The scratch file, if there is one, has no other name, and
the file of the history is neither that nor a backup. -/
structure Orderly (w : World) : Prop where
  disk : w.disk.Orderly w.tracker.scratchPath.spot
  file : ∀ id, w.host.history.file? = some id →
    id < w.disk.unused ∧ ∀ q, w.tracker.MayFill q → w.disk.node? q ≠ some (.file id)

/-- The backup directory is there. -/
def Rooted (w : World) : Prop :=
  ∃ m, w.disk.walk [] w.tracker.backupDir.steps = .ok m ∧ w.disk.node? m = some .directory

theorem Rooted.walk_scratch {d : Disk} (h : Rooted w)
    (hd : ∀ q, w.disk.node? q = some .directory → d.node? q = some .directory) {dir : Path}
    (hp : w.tracker.scratchPath.parent? = some dir) :
    ∃ m, d.walk [] dir.steps = .ok m ∧ d.node? m = some .directory := by
  obtain ⟨m, hm, hdir⟩ := Disk.walk_parent_join isEntry_scratch h hp
  exact ⟨m, Disk.walk_mono hd hm, hd m hdir⟩

/-- The parent of what is there is a directory, whatever the name of a table is. -/
theorem walk_backup {t : Tracker} {d : Disk} {k : Node} {dir : Path}
    (h : d.at? (t.backupPath n) = some k) (hp : (t.backupPath n).parent? = some dir) :
    ∃ m, d.walk [] dir.steps = .ok m ∧ d.node? m = some .directory := by
  obtain ⟨around, m, hm, hpath⟩ := SortedTable.exists_pathIn t.backupDir n
  rw [backupPath, hpath] at h hp
  have hentry := SortedTable.isEntry_append_ending hm
  exact Disk.walk_parent? hentry hentry h hp

theorem rooted_of_backed (hn : Unslashed n) (h : Backed w n) : Rooted w := by
  obtain ⟨k, hk⟩ := Option.isSome_iff_exists.mp h
  exact Disk.walk_of_join (SortedTable.isEntry_append_ending hn) hk

/-- One backup was replaced by its stripped copy, if any, by way of the scratch file. -/
structure Restrips (n : String) (w w' : World) : Prop where
  rest : w'.rest = w.rest
  disk : Disk.Supplants w.tracker.scratchPath.spot
    (fun q => q = w.tracker.scratchPath.spot ∨ q = (w.tracker.backupPath n).spot) (fun _ => False)
    w.disk w'.disk
  copy : w'.disk.at? (w.tracker.backupPath n) = w.disk.at? (w.tracker.backupPath n) ∨
    ∃ b, StripsTo w n b ∧ w'.disk.bytesAt (w.tracker.backupPath n) = .ok b

/-- As long as the scratch file is all that changed, the backup is as it was. -/
theorem Restrips.of_scratch {d : Disk} (h : Disk.Supplants w.tracker.scratchPath.spot
    (· = w.tracker.scratchPath.spot) (fun _ => False) w.disk d) :
    Restrips n w { w with host := { w.host with disk := d } } :=
  ⟨rfl, h.mono fun _ => .inl, .inl (h.at?_eq spot_backupPath_ne)⟩

/-- What is read of a backup while only the scratch file changed was there from the start. -/
theorem StripsTo.of_scratch {d : Disk} {reader : SortedTable.Reader} {x : SortedTable.Stripped}
    (ho : Orderly w) (hs : Disk.Supplants w.tracker.scratchPath.spot
      (· = w.tracker.scratchPath.spot) (fun _ => False) w.disk d)
    (hread : d.Reads (w.tracker.backupPath n) reader)
    (hcopy : SortedTable.strip reader w.tracker.options.stripBlockSize = (b, .ok x)) :
    StripsTo w n b := by
  have hne : (w.tracker.backupPath n).spot ≠ w.tracker.scratchPath.spot := spot_backupPath_ne
  obtain ⟨j, hj, hopen⟩ := hread
  have hj₀ : w.disk.at? (w.tracker.backupPath n) = some (.file j) := (hs.at?_eq hne).symm.trans hj
  obtain ⟨-, hsame⟩ := hs.file ho.disk hne hne not_false hj₀
  exact ⟨reader, x, ⟨j, hj₀, hsame ▸ hopen⟩, hcopy⟩

/-- Once the scratch file is moved, it is the backup, and the directory is settled if it can be. -/
theorem Restrips.of_moved {d d₁ d₂ : Disk} {i : Nat} {r : Except IoError Unit}
    (hs : Disk.Supplants w.tracker.scratchPath.spot (· = w.tracker.scratchPath.spot)
      (fun _ => False) w.disk d)
    (hscratched : d.at? w.tracker.scratchPath = some (.file i)) (hcontent : d.content i = b)
    (hstrips : StripsTo w n b)
    (hmove : Runs (Disk.rename w.tracker.scratchPath (w.tracker.backupPath n)) d (.ok ()) d₁)
    (hsettle : Runs (Disk.settle (w.tracker.backupPath n)) d₁ r d₂) :
    Restrips n w { w with host := { w.host with disk := d₂ } } ∧
      d₂.bytesAt (w.tracker.backupPath n) = .ok b ∧ ∀ u, r = .ok u →
        ∀ dir, (w.tracker.backupPath n).parent? = some dir → w.disk.isDirectory dir = true := by
  have hmoved := Frame.trans (hs.mono fun _ => Or.inl) (Disk.supplants_rename _ _ _ hmove)
  have hcalm := Disk.fixes_settle _ _ _ hsettle
  obtain ⟨i', hi', hat, hcontents⟩ := Disk.at?_of_rename hmove
  cases hi'.symm.trans hscratched
  have hbytes : d₂.bytesAt (w.tracker.backupPath n) = .ok b := by
    rw [Disk.bytesAt_eq ((Disk.at?_of_calm hcalm).trans hat), Disk.content_of_calm hcalm,
      Disk.content, hcontents, ← Disk.content, hcontent]
  refine ⟨⟨rfl, Frame.trans hmoved (.of_fixes hcalm), .inr ⟨b, hstrips, hbytes⟩⟩, hbytes, ?_⟩
  intro u hu dir hp
  subst hu
  have hopen : ∀ dir, (w.tracker.backupPath n).parent? = some dir →
      ∃ m, d₁.walk [] dir.steps = .ok m ∧ d₁.node? m = some .directory :=
    fun dir => walk_backup hat
  exact Disk.isDirectory_mono (fun q => hmoved.directory.mp)
    (Disk.isDirectory_of_settle hopen hsettle dir hp)

theorem restrips_stripBackup {r : Except UpkeepError Unit} (ho : Orderly w) (hroot : Rooted w)
    (h : Runs (stripBackup (w.tracker.backupPath n)) w r w') :
    Restrips n w w' ∧ ∀ u, r = .ok u → Admits w n ∧
      ∃ b, StripsTo w n b ∧ w'.disk.bytesAt (w.tracker.backupPath n) = .ok b := by
  rw [stripBackup, runs_get_bind] at h
  rcases runs_bind.mp h with ⟨_, w₁, hclear, h⟩ | ⟨e, hclear, rfl⟩
  swap
  · obtain ⟨r₀, d₁, hd₁, rfl, -⟩ := World.exists_of_discard hclear
    exact ⟨.of_scratch (Disk.supplants_discardFile _ _ _ hd₁), fun u hu => by cases hu⟩
  obtain ⟨r₀, d₁, hd₁, rfl, -⟩ := World.exists_of_discard hclear
  have hs₁ : Disk.Supplants w.tracker.scratchPath.spot (· = w.tracker.scratchPath.spot)
    (fun _ => False) w.disk d₁ := Disk.supplants_discardFile _ _ _ hd₁
  have hdir : ∀ dir, w.tracker.scratchPath.parent? = some dir →
      ∃ m, d₁.walk [] dir.steps = .ok m ∧ d₁.node? m = some .directory :=
    fun dir => hroot.walk_scratch fun q => hs₁.directory.mpr
  rcases runs_bind.mp h with ⟨_, w₂, hstrip, h⟩ | ⟨e, hstrip, rfl⟩
  swap
  · obtain ⟨r₁, d₂, hd₂, rfl, -⟩ := World.exists_of_discard hstrip
    exact ⟨.of_scratch (Frame.trans hs₁ (SortedTable.supplants_stripFile hdir hd₂).1),
      fun u hu => by cases hu⟩
  obtain ⟨r₁, d₂, hd₂, rfl, hok⟩ := World.exists_of_discard hstrip
  obtain ⟨hs₂, hcopied⟩ := SortedTable.supplants_stripFile hdir hd₂
  have hs₁₂ := Frame.trans hs₁ hs₂
  obtain ⟨x, hx⟩ := hok _ rfl
  obtain ⟨htakes, reader, b, i, hread, hcopy, hscratched, hcontent⟩ := hcopied x hx
  have hstrips : StripsTo w n b := .of_scratch ho hs₁ hread hcopy
  rcases runs_bind.mp h with ⟨_, w₃, hmove, h⟩ | ⟨e, hmove, rfl⟩
  swap
  · obtain ⟨r₂, d₃, hd₃, hr₂, rfl⟩ := World.runs_onDisk.mp hmove
    cases r₂ with
    | ok u => cases hr₂
    | error e' =>
      rw [(Disk.runs_change_error.mp hd₃).1]
      exact ⟨.of_scratch (Frame.trans hs₁₂ (.of_fixes Disk.fixes_calm_later)),
        fun u hu => by cases hu⟩
  obtain ⟨d₃, hd₃, rfl⟩ := World.runs_onDisk_ok.mp hmove
  obtain ⟨r₃, d₄, hd₄, hr₃, rfl⟩ := World.runs_onDisk.mp h
  obtain ⟨hrestrips, hbytes, hhoused⟩ := Restrips.of_moved hs₁₂ hscratched hcontent hstrips hd₃ hd₄
  refine ⟨hrestrips, fun u hu => ⟨⟨htakes.of_directories fun q => hs₁.directory.symm, ?_⟩,
    b, hstrips, hbytes⟩⟩
  cases r₃ with
  | error e => cases hr₃.symm.trans hu
  | ok v => exact hhoused v rfl

/-- A backup is stripped if it can be and the disk admits it. -/
theorem exists_stripBackup (hq : w.disk.outage = .quiet) (ho : Orderly w) (hroot : Rooted w)
    (hs : StripsTo w n b) (ha : Admits w n) :
    ∃ w', Runs (stripBackup (w.tracker.backupPath n)) w (.ok ()) w' ∧
      w'.disk.outage = .quiet := by
  have hne : (w.tracker.backupPath n).spot ≠ w.tracker.scratchPath.spot := spot_backupPath_ne
  obtain ⟨reader, x, ⟨j, hj, hopen⟩, hcopy⟩ := hs
  obtain ⟨_, d₁, hd₁⟩ := Disk.exists_runs_discardFile hq ha.takes.file
  have hq₁ := (Disk.moves_discardFile _ _ _ hd₁).quiet hq
  have hs₁ : Disk.Supplants w.tracker.scratchPath.spot (· = w.tracker.scratchPath.spot)
    (fun _ => False) w.disk d₁ := Disk.supplants_discardFile _ _ _ hd₁
  obtain ⟨hj₁, hsame⟩ := hs₁.file ho.disk hne hne not_false hj
  have htakes := ha.takes.of_directories fun q => hs₁.directory
  obtain ⟨d₂, hd₂, hq₂, i, hscratched, -⟩ := SortedTable.exists_stripFile hq₁
    ⟨j, hj₁, hsame.symm ▸ hopen⟩ hcopy (htakes.accepts hq₁)
  have hdir : ∀ dir, w.tracker.scratchPath.parent? = some dir →
      ∃ m, d₁.walk [] dir.steps = .ok m ∧ d₁.node? m = some .directory :=
    fun dir => hroot.walk_scratch fun q => hs₁.directory.mpr
  obtain ⟨hs₂, -⟩ := SortedTable.supplants_stripFile hdir hd₂
  have hs₁₂ := Frame.trans hs₁ hs₂
  obtain ⟨d₃, hd₃⟩ := Disk.exists_runs_rename hq₂ hscratched ((hs₁₂.at?_eq hne).trans hj)
  have hw₃ := Disk.moves_rename _ _ _ hd₃
  have hsettle : Runs (Disk.settle (w.tracker.backupPath n)) d₃ (.ok ()) d₃ :=
    Disk.runs_settle (hw₃.quiet hq₂) fun dir hp => Disk.isDirectory_mono
      (fun q hq => hw₃.directory.mpr (hs₁₂.directory.mpr hq)) (ha.housed dir hp)
  refine ⟨{ w with host := { w.host with disk := d₃ } }, ?_, hw₃.quiet hq₂⟩
  rw [stripBackup, runs_get_bind, runs_bind_ok]
  refine ⟨(), _, runs_discard_ok.mpr ⟨_, World.runs_onDisk_ok.mpr ⟨d₁, hd₁, rfl⟩⟩, ?_⟩
  rw [runs_bind_ok]
  refine ⟨(), _, runs_discard_ok.mpr ⟨_, World.runs_onDisk_ok.mpr ⟨d₂, hd₂, rfl⟩⟩, ?_⟩
  rw [runs_bind_ok]
  exact ⟨(), _, World.runs_onDisk_ok.mpr ⟨d₃, hd₃, rfl⟩,
    World.runs_onDisk_ok.mpr ⟨d₃, hsettle, rfl⟩⟩

end Tracker

end Lineage
