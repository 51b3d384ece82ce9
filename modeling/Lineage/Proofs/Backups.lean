import Lineage.Proofs.Disk.Removals
import Lineage.Proofs.Recording
import Lineage.Tracker.Upkeep

/-!
# What becomes of backups

A job that begins leaves a backup of each of its inputs (`runs_backUpAll`), removing backups leaves
none of those named (`not_backed_of_removeBackups`), and stripping one leaves it where it is
(`runs_stripBackup`). None of them touches another backup or anything outside of the backup
directory.
-/

namespace Lineage.Tracker

open World (onDisk onHost)

variable {t : Tracker} {w w' : World} {m n : String} {names : List String}

/-! ## Places -/

/-- The name of the scratch file is that of no table. -/
theorem isEntry_scratch : Path.IsEntry "pruned.sst.tmp" := by
  refine ⟨?_, by decide, by decide, by decide⟩
  rw [Unslashed]
  decide

theorem spot_scratchPath : t.scratchPath.spot = t.backupDir.spot ++ ["pruned.sst.tmp"] :=
  Path.spot_join isEntry_scratch

theorem spot_backupPath (hn : Unslashed n) :
    (t.backupPath n).spot = t.backupDir.spot ++ [n ++ String.ofList SortedTable.ending] :=
  SortedTable.spot_pathIn hn

theorem spot_backupPath_ne : (t.backupPath n).spot ≠ t.scratchPath.spot := by
  obtain ⟨dir, m, hm, hpath⟩ := SortedTable.exists_pathIn t.backupDir n
  rw [backupPath, hpath, SortedTable.spot_pathIn hm, spot_scratchPath]
  exact fun h => SortedTable.append_ending_ne (by decide) (List.append_singleton_inj.mp h).2

/-- The places right inside the backup directory. -/
def InBackups (t : Tracker) (q : Place) : Prop := ∃ s, q = t.backupDir.spot ++ [s]

/-- The places of the backups of some tables. -/
def backupSpots (t : Tracker) (names : List String) (q : Place) : Prop :=
  ∃ n ∈ names, q = (t.backupPath n).spot

theorem not_backupSpots (hn : Unslashed n) (hnames : ∀ m ∈ names, Unslashed m) (h : n ∉ names) :
    ¬ t.backupSpots names (t.backupPath n).spot := by
  rintro ⟨m, hm, he⟩
  rw [((SortedTable.spot_pathIn_inj hn (hnames m hm)).mp he).2] at h
  exact h hm

theorem inBackups_of_backupSpots {q : Place} (hnames : ∀ n ∈ names, Unslashed n)
    (h : t.backupSpots names q) : t.InBackups q := by
  obtain ⟨n, hn, rfl⟩ := h
  exact ⟨_, spot_backupPath (hnames n hn)⟩

/-- There is something under the name of a table's backup. -/
def Backed (w : World) (n : String) : Prop :=
  (w.disk.at? (w.tracker.backupPath n)).isSome = true

/-! ## Making backups -/

/-- Where a name that is taken is no failure, nothing fails but the disk. -/
theorem runs_unlessTaken {a : Disk.Action IoError Unit} {r : Except Error Unit}
    (h : Runs (tryCatch (onDisk .io a) fun e => match e with
      | .io e => unless e.kind = .alreadyExists do throw (.io e)
      | e => throw e) w r w') :
    ∃ r₀ d, Runs a w.disk r₀ d ∧ w' = { w with host := { w.host with disk := d } } ∧
      ((r = .ok () ∧ (r₀ = .ok () ∨ ∃ e, r₀ = .error e ∧ e.kind = .alreadyExists)) ∨
        ∃ e, r = .error (.io e)) := by
  rcases runs_tryCatch.mp h with ⟨u, hr, rfl⟩ | ⟨e, w₁, hr, h⟩
  · obtain ⟨d, hd, rfl⟩ := World.runs_onDisk_ok.mp hr
    exact ⟨_, d, hd, rfl, .inl ⟨rfl, .inl rfl⟩⟩
  · obtain ⟨r₀, d, hd, he, rfl⟩ := World.runs_onDisk.mp hr
    cases r₀ with
    | ok u => cases he
    | error f =>
      cases he
      dsimp only at h
      split at h
      · rename_i hkind
        obtain ⟨rfl, rfl⟩ := runs_pure.mp h
        exact ⟨_, d, hd, rfl, .inl ⟨rfl, .inr ⟨f, rfl, hkind⟩⟩⟩
      · obtain ⟨rfl, rfl⟩ := runs_throw.mp h
        exact ⟨_, d, hd, rfl, .inr ⟨f, rfl⟩⟩

theorem runs_backUp {p : Path} {u : Unit} (h : Runs (backUp p) w (.ok u) w') :
    ∃ n r d, SortedTable.nameAt? p = some n ∧
      Runs (Disk.link p (w.tracker.backupPath n)) w.disk r d ∧
      w' = { w with host := { w.host with disk := d } } ∧
      (r = .ok () ∨ ∃ e, r = .error e ∧ e.kind = .alreadyExists) := by
  rw [backUp, runs_bind_ok] at h
  obtain ⟨n, w₁, hname, h⟩ := h
  obtain ⟨hn, rfl⟩ := runs_ofExcept.mp hname
  obtain ⟨r, d, hd, hw, ⟨-, hr⟩ | ⟨e, he⟩⟩ := runs_unlessTaken (runs_tryCatch_get.mp h)
  · exact ⟨n, r, d, nameAt_eq_ok.mp hn.symm, hd, hw, hr⟩
  · cases he

/-- Each of some tables gets a backup, or has one. -/
theorem runs_backUpAll {ps : List Path} {u : Unit} (h : Runs (backUpAll ps) w (.ok u) w')
    (hq : w.disk.outage = .quiet) (hnames : ps.map SortedTable.nameAt? = names.map some) :
    w'.rest = w.rest ∧ Disk.Within (w.tracker.backupSpots names) w.disk w'.disk ∧
      Disk.Grows w.disk w'.disk ∧ ∀ n ∈ names, Backed w' n := by
  induction ps generalizing w names with
  | nil =>
    rw [List.map_nil, eq_comm, List.map_eq_nil_iff] at hnames
    obtain ⟨-, rfl⟩ := runs_pure.mp h
    rw [hnames]
    exact ⟨rfl, Frame.refl _, Frame.refl _, fun n hn => absurd hn List.not_mem_nil⟩
  | cons p rest ih =>
    obtain ⟨n, names, rfl, hn, hrest⟩ := List.map_eq_cons_iff.mp hnames.symm
    rw [backUpAll, runs_bind_ok] at h
    obtain ⟨v, w₁, hp, h⟩ := h
    obtain ⟨n', r, d, hname, hlink, rfl, hr⟩ := runs_backUp hp
    rw [hname] at hn
    cases hn
    have hw : Disk.Within (w.tracker.backupSpots (n :: names)) w.disk d :=
      (Disk.moves_link _ _ _ hlink).mono fun q hq => ⟨n, List.mem_cons_self, hq⟩
    have hsome : (d.at? (w.tracker.backupPath n)).isSome = true := by
      rcases hr with rfl | ⟨e, rfl, he⟩
      · exact Disk.isSome_at?_of_link hlink
      · exact Disk.isSome_at?_of_link_error hq he hlink
    obtain ⟨hrest', hw', hg, hbacked⟩ := ih h (hw.quiet hq) hrest.symm
    have htracker : w'.tracker = w.tracker := congrArg Prod.fst hrest'
    refine ⟨hrest', Frame.trans hw (hw'.mono ?_), Frame.trans (Disk.grows_link _ _ _ hlink) hg, ?_⟩
    · rintro q ⟨m, hm, he⟩
      exact ⟨m, List.mem_cons_of_mem _ hm, he⟩
    · intro m hm
      rcases List.mem_cons.mp hm with rfl | hm
      · obtain ⟨k, hk⟩ := Option.isSome_iff_exists.mp hsome
        rw [Backed, htracker, hg.at?_eq_some hk]
        rfl
      · exact hbacked m hm

/-- A job that begins and is to be recorded leaves its inputs backed up. -/
theorem beginJob_ok {store : Store} {j : Job} {u : Unit} (h : Runs (beginJob store j) w (.ok u) w')
    (hj : w.tracker.ignores j = false) (ht : Tracking w) (hq : w.disk.outage = .quiet)
    (hnames : j.inputs.map SortedTable.nameAt? = names.map some) :
    (∃ infos, w'.tracker = w.tracker.remember infos) ∧ w'.host.history = w.host.history ∧
      w'.host.snapshots = w.host.snapshots ∧
      Disk.Within (w.tracker.backupSpots names) w.disk w'.disk ∧ ∀ n ∈ names, Backed w' n := by
  rw [beginJob, runs_get_bind, if_neg (Bool.eq_false_iff.mp hj), runs_bind_ok] at h
  obtain ⟨b, w₁, hrec, h⟩ := h
  obtain ⟨hasked, hb⟩ := runs_recording hrec
  have hdisk : w₁.disk = w.disk := hasked.disk
  rw [(hb b rfl).mpr ht, if_pos rfl, runs_bind_ok] at h
  obtain ⟨infos, w₂, hinfos, h⟩ := h
  obtain ⟨-, rfl⟩ := runs_ofExcept.mp hinfos
  rw [runs_bind_ok] at h
  obtain ⟨_, w₃, hupdate, h⟩ := h
  obtain ⟨-, rfl⟩ := World.runs_update.mp hupdate
  obtain ⟨hrest, hw, -, hbacked⟩ := runs_backUpAll h (hdisk ▸ hq) hnames
  have htracker : w'.tracker = w₂.tracker.remember infos := congrArg Prod.fst hrest
  refine ⟨⟨infos, by rw [htracker, hasked.tracker]⟩, ?_, ?_, ?_, hbacked⟩
  · exact (congrArg (fun r => r.2.1) hrest).trans hasked.history
  · exact (congrArg (fun r => r.2.2) hrest).trans hasked.snapshots
  · rw [← hdisk, ← hasked.tracker]
    exact hw

/-! ## Removing backups -/

/-- Removing the first of some backups goes on with the others, whether or not it fails. -/
theorem runs_removeBackups_cons {r : Except UpkeepError Nat}
    (h : Runs (removeBackups (n :: names)) w r w') : ∃ r₀ d r₁,
      Runs (Disk.removeFile (w.tracker.backupPath n)) w.disk r₀ d ∧
      Runs (removeBackups names) { w with host := { w.host with disk := d } } r₁ w' ∧
      ∀ e, r = .error e → r₁ = .error e := by
  rw [removeBackups, runs_bind] at h
  have hfirst {r : Except UpkeepError Nat} {w₁ : World} (h : Runs (tryCatch (do
      onDisk .io (Disk.removeFile ((← get).tracker.backupPath n))
      pure 1) fun _ => pure 0) w r w₁) : (∃ k, r = .ok k) ∧ ∃ r₀ d,
        Runs (Disk.removeFile (w.tracker.backupPath n)) w.disk r₀ d ∧
        w₁ = { w with host := { w.host with disk := d } } := by
    rcases runs_tryCatch.mp h with ⟨k, hr, rfl⟩ | ⟨e, w₂, hr, hk⟩
    · rw [runs_get_bind, runs_bind_ok] at hr
      obtain ⟨v, w₂, hr, hk⟩ := hr
      obtain ⟨d, hd, rfl⟩ := World.runs_onDisk_ok.mp hr
      obtain ⟨-, rfl⟩ := runs_pure.mp hk
      exact ⟨⟨k, rfl⟩, _, d, hd, rfl⟩
    · obtain ⟨hzero, rfl⟩ := runs_pure.mp hk
      rw [runs_get_bind, runs_bind] at hr
      rcases hr with ⟨v, w₂, -, hr⟩ | ⟨f, hr, -⟩
      · cases (runs_pure.mp hr).1
      · obtain ⟨r₀, d, hd, -, rfl⟩ := World.runs_onDisk.mp hr
        exact ⟨⟨0, hzero⟩, r₀, d, hd, rfl⟩
  rcases h with ⟨k, w₁, hr, h⟩ | ⟨e, hr, -⟩
  · obtain ⟨-, r₀, d, hd, rfl⟩ := hfirst hr
    rw [runs_bind] at h
    rcases h with ⟨j, w₂, hrest, h⟩ | ⟨e, hrest, rfl⟩
    · obtain ⟨rfl, rfl⟩ := runs_pure.mp h
      exact ⟨r₀, d, _, hd, hrest, fun e he => nomatch he⟩
    · exact ⟨r₀, d, _, hd, hrest, fun _ he => he⟩
  · obtain ⟨⟨k, hk⟩, -⟩ := hfirst hr
    cases hk

theorem removeBackups_within {r : Except UpkeepError Nat} (h : Runs (removeBackups names) w r w') :
    w'.rest = w.rest ∧ Disk.Within (w.tracker.backupSpots names) w.disk w'.disk := by
  induction names generalizing w r with
  | nil =>
    obtain ⟨-, rfl⟩ := runs_pure.mp h
    exact ⟨rfl, Frame.refl _⟩
  | cons n rest ih =>
    obtain ⟨r₀, d, r₁, hd, hrest, -⟩ := runs_removeBackups_cons h
    obtain ⟨hrest', hw'⟩ := ih hrest
    have hfirst : Disk.Within (w.tracker.backupSpots (n :: rest)) w.disk d :=
      (Disk.moves_removeFile _ _ _ hd).mono fun q hq => ⟨n, List.mem_cons_self, hq⟩
    refine ⟨hrest', Frame.trans hfirst (hw'.mono ?_)⟩
    rintro q ⟨m, hm, he⟩
    exact ⟨m, List.mem_cons_of_mem _ hm, he⟩

/-- Removing backups does not fail, even if no backup can be removed. -/
theorem removeBackups_ok {r : Except UpkeepError Nat} (h : Runs (removeBackups names) w r w') :
    ∃ k, r = .ok k := by
  induction names generalizing w r with
  | nil => exact ⟨0, (runs_pure.mp h).1⟩
  | cons n rest ih =>
    obtain ⟨_, _, r₁, -, hrest, herror⟩ := runs_removeBackups_cons h
    obtain ⟨k, rfl⟩ := ih hrest
    cases r with
    | ok j => exact ⟨j, rfl⟩
    | error e => cases herror e rfl

/-- Nothing but the disk changes when backups are removed. -/
theorem exists_disk_of_removeBackups {r : Except UpkeepError Nat}
    (h : Runs (removeBackups names) w r w') :
    ∃ d, w' = { w with host := { w.host with disk := d } } := by
  induction names generalizing w r with
  | nil => exact ⟨w.disk, (runs_pure.mp h).2⟩
  | cons n rest ih =>
    obtain ⟨_, _, r₁, -, hrest, -⟩ := runs_removeBackups_cons h
    obtain ⟨d, hd⟩ := ih hrest
    exact ⟨d, hd⟩

theorem contents_of_removeBackups {r : Except UpkeepError Nat}
    (h : Runs (removeBackups names) w r w') : w'.disk.contents = w.disk.contents := by
  induction names generalizing w r with
  | nil => rw [(runs_pure.mp h).2]
  | cons n rest ih =>
    obtain ⟨r₀, d, r₁, hd, hrest, -⟩ := runs_removeBackups_cons h
    exact (ih hrest).trans (Disk.later_of_removeFile hd).2

/-- However removals end, no backups go but those of the tables. -/
theorem sheds_removeBackups {r : Except UpkeepError Nat} (h : Runs (removeBackups names) w r w') :
    Disk.ShedsAmong (names.map w.tracker.backupPath) w.disk w'.disk := by
  induction names generalizing w r with
  | nil =>
    rw [(runs_pure.mp h).2]
    exact .of_nodes rfl
  | cons n rest ih =>
    obtain ⟨r₀, d, r₁, hd, hrest, -⟩ := runs_removeBackups_cons h
    exact (Disk.sheds_removeFile hd).trans (ih hrest)

/-- Where no removal is refused, the backups that go are those of the tables. -/
theorem cleared_removeBackups {r : Except UpkeepError Nat} (h : Runs (removeBackups names) w r w')
    (hf : ∀ k, w.disk.outage k .remove = none) :
    Disk.Cleared (names.map w.tracker.backupPath) w.disk w'.disk := by
  induction names generalizing w r with
  | nil =>
    rw [(runs_pure.mp h).2]
    exact .of_nodes rfl
  | cons n rest ih =>
    obtain ⟨r₀, d, r₁, hd, hrest, -⟩ := runs_removeBackups_cons h
    have houtage := (Disk.later_of_removeFile hd).1
    refine (Disk.cleared_removeFile (hf 0) hd).trans (ih hrest fun k => ?_)
    change d.outage k .remove = none
    rw [houtage]
    exact hf (k + 1)

/-- None of some tables has a backup once these are removed. -/
theorem not_backed_of_removeBackups {r : Except UpkeepError Nat}
    (h : Runs (removeBackups names) w r w') (hq : w.disk.outage = .quiet)
    (hnames : ∀ n ∈ names, Unslashed n)
    (hdir : ∀ n ∈ names, w.disk.at? (w.tracker.backupPath n) ≠ some .directory) :
    ∀ n ∈ names, ¬ Backed w' n := by
  induction names generalizing w r with
  | nil => exact fun n hn => absurd hn List.not_mem_nil
  | cons n rest ih =>
    rw [List.forall_mem_cons] at hnames hdir
    obtain ⟨r₀, d, r₁, hd, hrest, -⟩ := runs_removeBackups_cons h
    have hfirst := Disk.moves_removeFile _ _ _ hd
    have hdir' : ∀ m ∈ rest, d.at? (w.tracker.backupPath m) ≠ some .directory :=
      fun m hm hn => hdir.2 m hm (hfirst.at?_eq_directory.mp hn)
    intro m hm
    by_cases hmem : m ∈ rest
    · exact ih hrest (hfirst.quiet hq) hnames.2 hdir' m hmem
    · have hmn : m = n := (List.mem_cons.mp hm).resolve_right hmem
      subst hmn
      obtain ⟨hrest', hw'⟩ := removeBackups_within hrest
      have htracker : w'.tracker = w.tracker := congrArg Prod.fst hrest'
      have hnone := Disk.at?_eq_none_of_removeFile hq hdir.1 hd
      rw [Backed, htracker, hw'.at?_eq (not_backupSpots hnames.1 hnames.2 hmem)]
      exact fun hsome => Bool.noConfusion (hnone ▸ hsome)

/-! ## Stripping backups -/

theorem runs_store {p : Path} {b : Bytes} {u : Unit} {d d' : Disk}
    (h : Runs (SortedTable.store p b) d (.ok u) d') (hq : d.outage = .quiet)
    (hparent : ∀ parent, p.parent? = some parent →
      ∃ m, d.walk [] parent.steps = .ok m ∧ d.node? m = some .directory) :
    Disk.Within (· = p.spot) d d' := by
  rw [SortedTable.store, runs_adapt_ok] at h
  obtain ⟨_, d₁, hmade, h⟩ := runs_bind_ok.mp h
  refine Frame.trans ?_ (Disk.moves_writeFile _ _ _ h)
  rw [Disk.makeParents] at hmade
  cases hp : p.parent? with
  | none =>
    rw [hp] at hmade
    rw [(runs_pure.mp hmade).2]
    exact Frame.refl d
  | some parent =>
    rw [hp] at hmade
    obtain ⟨m, hm, hdir⟩ := hparent parent hp
    exact Disk.within_makeDirectories hq hm hdir hmade

theorem runs_stripFile {source target : Path} {size : Nat} {x : SortedTable.Stripped} {d d' : Disk}
    (h : Runs (SortedTable.stripFile source target size) d (.ok x) d') (hq : d.outage = .quiet)
    (hparent : ∀ parent, target.parent? = some parent →
      ∃ m, d.walk [] parent.steps = .ok m ∧ d.node? m = some .directory) :
    Disk.Within (· = target.spot) d d' := by
  rw [SortedTable.stripFile, runs_bind_ok] at h
  obtain ⟨r, d₁, hload, h⟩ := h
  have hw : Disk.Within (· = target.spot) d d₁ :=
    moves_bind (moves_adapt Disk.moves_query) (fun _ => moves_ofExcept) d _ d₁ hload
  have hparent' : ∀ parent, target.parent? = some parent →
      ∃ m, d₁.walk [] parent.steps = .ok m ∧ d₁.node? m = some .directory := by
    intro parent hp
    obtain ⟨m, hm, hdir⟩ := hparent parent hp
    exact ⟨m, Disk.walk_mono (fun _ => hw.directory.mpr) hm, hw.directory.mpr hdir⟩
  dsimp only at h
  rw [runs_bind_ok] at h
  obtain ⟨u, d₂, hstore, h⟩ := h
  obtain ⟨-, rfl⟩ := runs_ofExcept.mp h
  exact Frame.trans hw (runs_store hstore (hw.quiet hq) hparent')

theorem runs_stripBackup {u : Unit} (h : Runs (stripBackup (w.tracker.backupPath n)) w (.ok u) w')
    (hq : w.disk.outage = .quiet) (hn : Unslashed n) (hb : Backed w n) :
    w'.rest = w.rest ∧ Disk.Within
      (fun q => q = w.tracker.scratchPath.spot ∨ q = (w.tracker.backupPath n).spot) w.disk w'.disk ∧
      Backed w' n := by
  rw [stripBackup, runs_get_bind, runs_bind_ok] at h
  obtain ⟨_, w₁, hclear, h⟩ := h
  obtain ⟨_, hclear₁⟩ := runs_discard_ok.mp hclear
  obtain ⟨d₁, hclear₂, rfl⟩ := World.runs_onDisk_ok.mp hclear₁
  rw [runs_bind_ok] at h
  obtain ⟨_, w₂, hstrip, h⟩ := h
  obtain ⟨_, hstrip₁⟩ := runs_discard_ok.mp hstrip
  obtain ⟨d₂, hstrip₂, rfl⟩ := World.runs_onDisk_ok.mp hstrip₁
  obtain ⟨_, w₃, hmoved, h⟩ := runs_bind_ok.mp h
  obtain ⟨d₃, hrename, rfl⟩ := World.runs_onDisk_ok.mp hmoved
  have hw₁ := Disk.moves_discardFile _ _ _ hclear₂
  obtain ⟨k, hk⟩ := Option.isSome_iff_exists.mp hb
  have hk₁ : d₁.at? (w.tracker.backupPath n) = some k :=
    (hw₁.at?_eq spot_backupPath_ne).trans hk
  have hw₂ : Disk.Within (· = w.tracker.scratchPath.spot) d₁ d₂ :=
    runs_stripFile hstrip₂ (hw₁.quiet hq) fun parent hp =>
      Disk.walk_parent? (SortedTable.isEntry_append_ending hn) isEntry_scratch hk₁ hp
  have hw₃ := Frame.trans ((Frame.trans hw₁ hw₂).mono fun q => Or.inl)
    (Disk.moves_rename _ _ _ hrename)
  obtain ⟨d₄, hsettle, rfl⟩ := World.runs_onDisk_ok.mp h
  cases Disk.eq_of_settle (hw₃.quiet hq) hsettle
  exact ⟨rfl, hw₃, Disk.isSome_at?_of_rename hrename⟩

end Lineage.Tracker
