import Lineage.Proofs.Migration.Logs
import Lineage.Proofs.Migration.Runs

/-!
# A migration that is taken up again

However a start ends, the logs it found are those it stored and removed, followed by those that are
left, and of the first one left some compactions may be stored already (`runs_loadHistory`). A start
that goes through later stores these again to no effect. It ends with the rows of a start that was
never cut off, if the logs that are left tell by themselves what they tell after the others
(`loadHistory_restart`).
-/

namespace Lineage

open World (onDisk onHost update)
open TextLog (Replay Readable tell carry)

variable {w w₁ w' : World} {rep : Replay} {gone gone' : List TextLog.File} {done : List Compaction}

/-! ## Logs -/

/-- The text logs that a tracker finds, in the order in which it replays them. -/
def World.logs (w : World) : List TextLog.File :=
  (w.disk.logPaths w.tracker.logDir).map fun p => ⟨p, w.disk.bytes p⟩

/-- What the logs and the history of a world are read off. -/
def World.sources (w : World) : Disk × Table × Path := (w.disk, w.host.history, w.tracker.logDir)

/-- The names of the logs are such as files have, and none of them names the file that the history
is kept in. -/
structure World.Tidy (w : World) : Prop where
  named : w.disk.Named w.tracker.logDir
  apart : ∀ p ∈ w.disk.logPaths w.tracker.logDir, ∀ id, w.disk.at? p = some (.file id) →
    w.host.history.file? ≠ some id

theorem Disk.Writes.bytes {d d' : Disk} {files : FileId → Prop} {p : Path} {id : FileId}
    (h : d.Writes files d') (hp : d.at? p = some (.file id)) (hid : ¬ files id) :
    d'.bytes p = d.bytes p := by
  rw [Disk.bytes_of_file hp, Disk.bytes_of_file ((Disk.at?_of_nodes h.nodes).trans hp),
    h.content id hid]

namespace Tracker

/-- Where only rows changed, the logs are what they were. -/
theorem OnlyRows.logs (h : OnlyRows w w') (ht : w.Tidy) : w'.logs = w.logs ∧ w'.Tidy := by
  have hpaths : w'.disk.logPaths w'.tracker.logDir = w.disk.logPaths w.tracker.logDir := by
    rw [h.tracker, Disk.logPaths_of_nodes h.disk.nodes]
  refine ⟨?_, ?_, ?_⟩
  · rw [World.logs, hpaths]
    refine List.map_congr_left fun p hp => ?_
    obtain ⟨n, id, -, hid⟩ := Disk.exists_of_mem_logPaths ht.named hp
    rw [h.disk.bytes hid (ht.apart p hp id hid)]
  · rw [h.tracker]
    intro names hnames
    exact ht.named names ((Disk.namesIn_of_nodes h.disk.nodes).mp hnames)
  · rw [hpaths, h.file]
    intro p hp id hid
    exact ht.apart p hp id ((Disk.at?_of_nodes h.disk.nodes).symm.trans hid)

/-- Where the first log was removed, the others are what they were. -/
theorem logs_of_loses (w' : World) {p : Path} {ps : List Path} (hl : Disk.Loses p w.disk w'.disk)
    (hc : w'.disk.contents = w.disk.contents) (hrest : World.rest w' = World.rest w) (ht : w.Tidy)
    (hp : w.disk.logPaths w.tracker.logDir = p :: ps) :
    w.logs = ⟨p, w.disk.bytes p⟩ :: w'.logs ∧ w'.Tidy := by
  have htracker : w'.tracker = w.tracker := congrArg Prod.fst hrest
  have hhistory : w'.host.history = w.host.history := congrArg (·.2.1) hrest
  obtain ⟨hps, hnamed⟩ := hl.logPaths ht.named hp
  have hat {p' : Path} (hp' : p' ∈ ps) : w'.disk.at? p' = w.disk.at? p' := by
    obtain ⟨n, id, -, hid⟩ := Disk.exists_of_mem_logPaths hnamed (hps ▸ hp')
    refine hl.at?_eq fun he => ?_
    have hnone := hl.node? (q := p'.spot)
    rw [if_pos he.symm, (Disk.at?_eq_some.mp hid).2] at hnone
    cases hnone
  have hmem {p' : Path} (hp' : p' ∈ ps) : p' ∈ w.disk.logPaths w.tracker.logDir :=
    hp ▸ List.mem_cons_of_mem p hp'
  refine ⟨?_, ?_, ?_⟩
  · rw [World.logs, World.logs, htracker, hp, hps, List.map_cons]
    refine congrArg _ (List.map_congr_left fun p' hp' => ?_)
    obtain ⟨n, id, -, hid⟩ := Disk.exists_of_mem_logPaths ht.named (hmem hp')
    rw [Disk.bytes_of_file hid, Disk.bytes_of_file ((hat hp').trans hid), Disk.content,
      Disk.content, hc]
  · rw [htracker]
    exact hnamed
  · rw [htracker, hps, hhistory]
    intro p' hp' id hid
    exact ht.apart p' (hmem hp') id ((hat hp').symm.trans hid)

/-! ## Runs -/

/-- The first logs were stored and removed, and of the next one some compactions were stored. -/
structure Migrates (rep : Replay) (w : World) (gone : List TextLog.File) (done : List Compaction)
    (w' : World) : Prop where
  logs : w.logs = gone ++ w'.logs
  readable : ∀ f ∈ gone, Readable f
  part : done <+: tell (carry rep gone) (w'.logs.take 1)
  rows : settleAll w.host.history.rows (tell rep gone ++ done) = some w'.host.history.rows
  tidy : w'.Tidy

theorem Migrates.refl (ht : w.Tidy) : Migrates rep w [] [] w :=
  ⟨rfl, nofun, List.nil_prefix, rfl, ht⟩

/-- A migration that stops before it removed the first log. -/
theorem Migrates.stop (ht : w.Tidy) (ho : OnlyRows w w')
    (hd : done <+: tell rep (w.logs.take 1))
    (hr : settleAll w.host.history.rows done = some w'.host.history.rows) :
    Migrates rep w [] done w' where
  logs := (ho.logs ht).1.symm
  readable := nofun
  part := by
    rw [(ho.logs ht).1]
    exact hd
  rows := hr
  tidy := (ho.logs ht).2

/-- A migration that goes on once it removed the first log. -/
theorem Migrates.cons (f : TextLog.File) {told : List Compaction} (hf : w.logs = f :: w₁.logs)
    (htold : (rep.run f.bytes).1 = .ok told)
    (hrows : settleAll w.host.history.rows told = some w₁.host.history.rows)
    (h : Migrates (rep.run f.bytes).2 w₁ gone done w') : Migrates rep w (f :: gone) done w' where
  logs := by rw [hf, h.logs, List.cons_append]
  readable := List.forall_mem_cons.mpr ⟨(TextLog.readable_iff rep).mpr ⟨told, htold⟩, h.readable⟩
  part := h.part
  rows := by
    rw [TextLog.tell_cons_ok htold, List.append_assoc, settleAll_append, hrows]
    exact h.rows
  tidy := h.tidy

theorem runs_readLog {p : Path} {id : FileId}
    {r : Except Error (Except TextLog.Error (List Compaction) × Replay)}
    (hp : w.disk.at? p = some (.file id))
    (h : Runs (onDisk (fun e => e) (ExceptT.lift (rep.runFile p))) w r w') :
    OnlyRows w w' ∧ w'.host.history.rows = w.host.history.rows ∧
      ((∃ e, r = .ok (.error e, rep)) ∨ r = .ok (rep.run (w.disk.bytes p))) := by
  obtain ⟨r₀, d, hd, rfl, rfl⟩ := World.runs_onDisk.mp h
  obtain ⟨rfl, ⟨e, rfl⟩ | rfl⟩ := Replay.runs_runFile hp hd
  · exact ⟨⟨rfl, ⟨rfl, fun _ _ => rfl⟩, rfl⟩, rfl, .inl ⟨_, rfl⟩⟩
  · exact ⟨⟨rfl, ⟨rfl, fun _ _ => rfl⟩, rfl⟩, rfl, .inr rfl⟩

theorem runs_removeLog {p : Path} {ps : List Path} {r : Except Error Unit} (ht : w.Tidy)
    (hp : w.disk.logPaths w.tracker.logDir = p :: ps)
    (h : Runs (onDisk Error.io (Disk.removeFile p)) w r w') :
    w'.host.history.rows = w.host.history.rows ∧ ((∃ e, r = .error e) ∧ OnlyRows w w' ∨
      r = .ok () ∧ w'.logs = w.logs.tail ∧ w'.Tidy ∧
        w'.disk.logPaths w'.tracker.logDir = ps) := by
  obtain ⟨r₀, d, hd, rfl, rfl⟩ := World.runs_onDisk.mp h
  refine ⟨rfl, ?_⟩
  cases r₀ with
  | error e =>
    obtain ⟨rfl, -⟩ := Disk.runs_change_error.mp hd
    exact .inl ⟨⟨_, rfl⟩, rfl, ⟨rfl, fun _ _ => rfl⟩, rfl⟩
  | ok u =>
    have hfile : ∃ n id, p.spot = w.tracker.logDir.spot ++ [n] ∧ w.disk.at? p = some (.file id) :=
      Disk.exists_of_mem_logPaths ht.named (hp ▸ List.mem_cons_self)
    obtain ⟨n, id, -, hid⟩ := hfile
    obtain ⟨-, rfl⟩ := Disk.withoutName_eq_ok (Disk.runs_change_ok.mp hd).2
    have hl : Disk.Loses p w.disk { w.disk with
        nodes := w.disk.nodes.erase p.spot, outage := w.disk.outage.later } := ⟨⟨id, hid⟩, rfl⟩
    obtain ⟨hlogs, htidy⟩ :=
      logs_of_loses { w with host := { w.host with disk := _ } } hl rfl rfl ht hp
    exact .inr ⟨rfl, (congrArg List.tail hlogs).symm, htidy, (hl.logPaths ht.named hp).1⟩

/-- A log that was read is told, unless reading it failed. -/
theorem run_of_told {b : Bytes} {cs : List Compaction}
    {x : Except TextLog.Error (List Compaction) × Replay}
    (h : (∃ e, (.ok x : Except Error _) = .ok (.error e, rep)) ∨
      (.ok x : Except Error _) = .ok (rep.run b)) (hok : x.1 = .ok cs) :
    (rep.run b).1 = .ok cs ∧ (rep.run b).2 = x.2 := by
  rcases h with ⟨e, he⟩ | he
  · rw [Except.ok.inj he] at hok
    cases hok
  · rw [← Except.ok.inj he]
    exact ⟨hok, rfl⟩

/-- Either a migration stops before it removed the first log, or it stores that log, removes it and
goes on with the others. -/
theorem runs_migrateLogs_cons {p : Path} {ps : List Path} {s : Loaded} {r : Except Error Loaded}
    (ht : w.Tidy) (hps : w.disk.logPaths w.tracker.logDir = p :: ps)
    (h : Runs (migrateLogs rep s (p :: ps)) w r w') :
    (∃ e, r = .error e) ∧ (∃ done, Migrates rep w [] done w') ∨
      ∃ f cs s₁ w₁, w.logs = f :: w₁.logs ∧ (rep.run f.bytes).1 = .ok cs ∧
        settleAll w.host.history.rows cs = some w₁.host.history.rows ∧ w₁.Tidy ∧
        w₁.disk.logPaths w₁.tracker.logDir = ps ∧
        Runs (migrateLogs (rep.run f.bytes).2 s₁ ps) w₁ r w' := by
  obtain ⟨n, id, -, hid⟩ := Disk.exists_of_mem_logPaths ht.named (hps ▸ List.mem_cons_self)
  have hlogs : w.logs = ⟨p, w.disk.bytes p⟩ :: w.logs.tail := by
    rw [World.logs, hps]
    rfl
  rw [migrateLogs] at h
  rcases runs_bind.mp h with ⟨⟨x, rep'⟩, w₁, hfile, h₁⟩ | ⟨e, hfile, rfl⟩
  swap
  · obtain ⟨-, -, ⟨_, he⟩ | he⟩ := runs_readLog hid hfile
    · cases he
    · cases he
  obtain ⟨ho₁, hr₁, hx⟩ := runs_readLog hid hfile
  rcases runs_bind.mp h₁ with ⟨cs, w₂, hcs, h₂⟩ | ⟨e, hcs, rfl⟩
  swap
  · -- A log that cannot be read stores nothing.
    obtain ⟨-, rfl⟩ := runs_ofExcept.mp hcs
    exact .inl ⟨⟨e, rfl⟩, [], .stop ht ho₁ List.nil_prefix (congrArg some hr₁.symm)⟩
  obtain ⟨hok, rfl⟩ := runs_ofExcept.mp hcs
  obtain ⟨htold, rfl⟩ := run_of_told hx (except_mapError_eq_ok.mp hok.symm)
  have htell : tell rep (w.logs.take 1) = cs := by
    rw [hlogs]
    exact (TextLog.tell_cons_ok (f := ⟨p, w.disk.bytes p⟩) htold).trans (List.append_nil cs)
  rcases runs_bind.mp h₂ with ⟨added, w₃, hall, h₃⟩ | ⟨e, hall, rfl⟩
  swap
  · obtain ⟨ho₃, done, hdone, hr₃, -⟩ := runs_migrateAll hall
    rw [← htell] at hdone
    rw [hr₁] at hr₃
    exact .inl ⟨⟨e, rfl⟩, done, .stop ht (Frame.trans ho₁ ho₃) hdone hr₃⟩
  obtain ⟨ho₃, done, -, hr₃, hdone⟩ := runs_migrateAll hall
  have ho₃ : OnlyRows w w₃ := Frame.trans ho₁ ho₃
  rw [hdone added rfl, hr₁] at hr₃
  obtain ⟨hlogs₃, ht₃⟩ := ho₃.logs ht
  have hps₃ : w₃.disk.logPaths w₃.tracker.logDir = p :: ps := by
    rw [ho₃.tracker, Disk.logPaths_of_nodes ho₃.disk.nodes, hps]
  rcases runs_bind.mp h₃ with ⟨u, w₄, hremove, h₄⟩ | ⟨e, hremove, rfl⟩
  · obtain ⟨hr₄, ⟨⟨_, he⟩, -⟩ | ⟨-, hlogs₄, ht₄, hps₄⟩⟩ := runs_removeLog ht₃ hps₃ hremove
    · cases he
    refine .inr ⟨⟨p, w.disk.bytes p⟩, cs, _, w₄, ?_, htold, ?_, ht₄, hps₄, h₄⟩
    · rw [hlogs₄, hlogs₃]
      exact hlogs
    · rw [hr₄, hr₃]
  · obtain ⟨hr₄, ⟨-, ho₄⟩ | ⟨he, -⟩⟩ := runs_removeLog ht₃ hps₃ hremove
    · refine .inl ⟨⟨e, rfl⟩, cs, .stop ht (Frame.trans ho₃ ho₄) ?_ ?_⟩
      · exact htell ▸ List.prefix_rfl
      · rw [hr₃, hr₄]
    · cases he

/-- However a migration ends, the first logs are stored and removed. -/
theorem runs_migrateLogs {ps : List Path} {s : Loaded} {r : Except Error Loaded} (ht : w.Tidy)
    (hps : w.disk.logPaths w.tracker.logDir = ps) (h : Runs (migrateLogs rep s ps) w r w') :
    ∃ gone done, Migrates rep w gone done w' ∧ ∀ s', r = .ok s' → w'.logs = [] := by
  induction ps generalizing w rep s with
  | nil =>
    rw [migrateLogs] at h
    obtain ⟨-, rfl⟩ := runs_pure.mp h
    exact ⟨[], [], .refl ht, fun _ _ => by rw [World.logs, hps, List.map_nil]⟩
  | cons p ps ih =>
    obtain ⟨⟨e, rfl⟩, done, hm⟩ | ⟨f, cs, s₁, w₁, hlogs, htold, hrows, ht₁, hps₁, h₁⟩ :=
      runs_migrateLogs_cons ht hps h
    · exact ⟨[], done, hm, fun _ he => by cases he⟩
    · obtain ⟨gone, done, hm, hend⟩ := ih ht₁ hps₁ h₁
      exact ⟨f :: gone, done, .cons f hlogs htold hrows hm, hend⟩

/-- What comes after a migration leaves the logs and the rows alone. -/
theorem Migrates.after (hm : Migrates rep w gone done w₁) (hl : w'.logs = w₁.logs) (ht : w'.Tidy)
    (hr : w'.host.history.rows = w₁.host.history.rows) : Migrates rep w gone done w' where
  logs := by rw [hl, hm.logs]
  readable := hm.readable
  part := by
    rw [hl]
    exact hm.part
  rows := by
    rw [hr]
    exact hm.rows
  tidy := ht

theorem runs_listLogs {r : Except Error (List String)}
    (h : Runs (onDisk Error.io (Disk.listDirectory w.tracker.logDir)) w r w') :
    OnlyRows w w' ∧ w'.host.history.rows = w.host.history.rows ∧
      ∀ names, r = .ok names → w.disk.namesIn w.tracker.logDir = .ok names := by
  obtain ⟨r₀, d, hd, rfl, rfl⟩ := World.runs_onDisk.mp h
  obtain ⟨hd', hr₀⟩ := Disk.runs_query.mp hd
  have hnodes : d.nodes = w.disk.nodes := by rw [hd']; rfl
  have hcontents : d.contents = w.disk.contents := by rw [hd']; rfl
  refine ⟨⟨rfl, ⟨hnodes, fun id _ => ?_⟩, rfl⟩, rfl, fun names hnames => ?_⟩
  · change d.content id = _
    rw [Disk.content, hcontents]
    rfl
  · rw [except_mapError_eq_ok.mp hnames, ← hd'] at hr₀
    split at hr₀
    · cases hr₀
    · exact (Disk.namesIn_of_nodes hnodes).mp hr₀.symm

theorem runs_textLogs {r : Except Error (List Path)} (h : Runs textLogs w r w') :
    OnlyRows w w' ∧ w'.host.history.rows = w.host.history.rows ∧
      ∀ ps, r = .ok ps → ps = w.disk.logPaths w.tracker.logDir := by
  rw [textLogs, runs_get_bind] at h
  rcases runs_bind.mp h with ⟨names, w₁, hnames, h⟩ | ⟨e, hnames, rfl⟩
  · obtain ⟨ho, hr, hok⟩ := runs_listLogs hnames
    rw [runs_get_bind] at h
    obtain ⟨rfl, rfl⟩ := runs_pure.mp h
    refine ⟨ho, hr, fun ps hps => ?_⟩
    cases hps
    rw [← Disk.logPaths_of_nodes ho.disk.nodes, Disk.logPaths,
      (Disk.namesIn_of_nodes ho.disk.nodes).mpr (hok names rfl)]
    rfl
  · obtain ⟨ho, hr, -⟩ := runs_listLogs hnames
    exact ⟨ho, hr, fun _ he => by cases he⟩

theorem logDir_foldl_load {rows : List (Bytes × Compaction)} {t : Tracker} :
    (rows.foldl load t).logDir = t.logDir := by
  induction rows generalizing t with
  | nil => rfl
  | cons row rows ih =>
    rw [List.foldl_cons, ih]
    rw [load_eq]
    split
    · rw [logDir, dir_enqueue, options_enqueue]
      rfl
    · rfl

/-- Building the graph leaves all that a start reads alone. -/
theorem moves_loadRows {s : Loaded} : Moves (Fixes World.sources) (do
    let rows ← onHost Error.table Host.scanRows
    let rows ← ofExcept ((readRows rows).mapError Error.history)
    update fun t => rows.foldl load t
    return { s with rows := rows.length }) := by
  refine moves_bind (fun w r w' h => ?_) fun rows => moves_bind moves_ofExcept fun read =>
    moves_bind (fun w r w' h => ?_) fun _ => moves_pure
  · have ha := runs_scanRows h
    rw [Fixes, World.sources, World.sources, ha.tracker, ha.history, World.disk, ha.disk]
    rfl
  · obtain ⟨-, rfl⟩ := World.runs_update.mp h
    rw [Fixes, World.sources, World.sources, logDir_foldl_load]
    rfl

/-- However a start ends, the first logs are stored and removed. -/
theorem runs_loadHistory {r : Except Error Loaded} (ht : w.Tidy) (h : Runs loadHistory w r w') :
    ∃ gone done, Migrates {} w gone done w' ∧ ∀ s, r = .ok s → w'.logs = [] := by
  rw [loadHistory, runs_get_bind] at h
  split at h
  swap
  · obtain ⟨rfl, rfl⟩ := runs_throw_bind.mp h
    exact ⟨[], [], .refl ht, fun _ he => by cases he⟩
  rcases runs_bind.mp h with ⟨ps, w₁, hps, h₁⟩ | ⟨e, hps, rfl⟩
  swap
  · obtain ⟨ho, hr, -⟩ := runs_textLogs hps
    exact ⟨[], [], .stop ht ho List.nil_prefix (congrArg some hr.symm), fun _ he => by cases he⟩
  obtain ⟨ho, hr, hps⟩ := runs_textLogs hps
  obtain ⟨hlogs, ht₁⟩ := ho.logs ht
  have hps₁ : w₁.disk.logPaths w₁.tracker.logDir = ps := by
    rw [hps ps rfl, ho.tracker, Disk.logPaths_of_nodes ho.disk.nodes]
  -- What the migration found is what the start found.
  have hfrom {gone done w'} (hm : Migrates {} w₁ gone done w') : Migrates {} w gone done w' :=
    ⟨hlogs ▸ hm.logs, hm.readable, hm.part, hr ▸ hm.rows, hm.tidy⟩
  rcases runs_bind.mp h₁ with ⟨s, w₂, hmigrate, h₂⟩ | ⟨e, hmigrate, rfl⟩
  swap
  · obtain ⟨gone, done, hm, -⟩ := runs_migrateLogs ht₁ hps₁ hmigrate
    exact ⟨gone, done, hfrom hm, fun _ he => by cases he⟩
  obtain ⟨gone, done, hm, hend⟩ := runs_migrateLogs ht₁ hps₁ hmigrate
  have hend := hend s rfl
  have hsources : w'.sources = w₂.sources := moves_loadRows w₂ r w' h₂
  obtain ⟨hdisk, hrest⟩ := Prod.mk.inj hsources
  obtain ⟨hhistory, hdir⟩ := Prod.mk.inj hrest
  have hlogs₂ : w'.logs = w₂.logs := by rw [World.logs, World.logs, hdisk, hdir]
  have ht₂ : w'.Tidy := by
    refine ⟨?_, ?_⟩
    · rw [hdisk, hdir]
      exact hm.tidy.named
    · rw [hdisk, hdir, hhistory]
      exact hm.tidy.apart
  exact ⟨gone, done, hfrom (hm.after hlogs₂ ht₂ (by rw [hhistory])), fun _ _ => hlogs₂.trans hend⟩

/-- A start that goes through stores all that the logs tell, and removes them. -/
theorem loadHistory_ok {s : Loaded} (ht : w.Tidy) (h : Runs loadHistory w (.ok s) w') :
    settleAll w.host.history.rows (tell {} w.logs) = some w'.host.history.rows ∧
      w'.logs = [] := by
  obtain ⟨gone, done, hm, hend⟩ := runs_loadHistory ht h
  have hlogs := hend s rfl
  have hgone : w.logs = gone := by rw [hm.logs, hlogs, List.append_nil]
  have hdone : done = [] := by
    have hpart := hm.part
    rw [hlogs] at hpart
    exact List.prefix_nil.mp hpart
  refine ⟨?_, hlogs⟩
  rw [hgone, ← hm.rows, hdone, List.append_nil]

/-! ## Starts after one that was cut off -/

/-- The logs are what they were, but for those that could not be read, which may tell anything. -/
def Corrected : List TextLog.File → List TextLog.File → Prop :=
  List.Forall₂ fun f g => g.path = f.path ∧ (Readable f → g.bytes = f.bytes)

theorem Corrected.tell_take {fs gs : List TextLog.File} (rep : Replay) (h : Corrected fs gs) :
    tell rep (fs.take 1) = tell rep (gs.take 1) ∨ tell rep (fs.take 1) = [] := by
  cases h with
  | nil => exact .inl rfl
  | @cons f g fs gs hfg _ =>
    change tell rep [f] = tell rep [g] ∨ tell rep [f] = []
    cases hf : (rep.run f.bytes).1 with
    | error e => exact .inr (TextLog.tell_cons_error hf)
    | ok told =>
      have hbytes := hfg.2 ((TextLog.readable_iff rep).mpr ⟨told, hf⟩)
      have hg : (rep.run g.bytes).1 = .ok told := by rw [hbytes, hf]
      exact .inl (by rw [TextLog.tell_cons_ok hf, TextLog.tell_cons_ok hg, hbytes])

theorem tell_take_prefix {fs : List TextLog.File} : tell rep (fs.take 1) <+: tell rep fs := by
  cases fs with
  | nil => exact List.prefix_rfl
  | cons f fs =>
    change tell rep [f] <+: tell rep (f :: fs)
    cases hf : (rep.run f.bytes).1 with
    | error e =>
      rw [TextLog.tell_cons_error hf]
      exact List.nil_prefix
    | ok told =>
      rw [TextLog.tell_cons_ok hf, TextLog.tell_cons_ok hf]
      exact (List.prefix_append_right_inj told).mpr List.nil_prefix

/-- However a start ended, one that goes through afterwards leaves the rows of one that was never
cut off, if the logs it finds tell by themselves what they tell after those that are gone. -/
theorem loadHistory_restart {r : Except Error Loaded} (ht : w.Tidy)
    (h : Runs loadHistory w r w') : ∃ gone, w.logs = gone ++ w'.logs ∧
      ∀ {v v' u u' : World} {s s' : Loaded}, v.Tidy → u.Tidy →
        v.host.history.rows = w'.host.history.rows → u.host.history.rows = w.host.history.rows →
        Corrected w'.logs v.logs → u.logs = gone ++ v.logs →
        tell (carry {} gone) v.logs = tell {} v.logs →
        Runs loadHistory v (.ok s) v' → Runs loadHistory u (.ok s') u' →
        v'.host.history.rows = u'.host.history.rows := by
  obtain ⟨gone, done, hm, -⟩ := runs_loadHistory ht h
  refine ⟨gone, hm.logs, fun {v v' u u' s s'} hv hu hvr hur hc hlogs htell hrunv hrunu => ?_⟩
  -- What was stored already is what the logs tell first.
  have hdone : done <+: tell (carry {} gone) v.logs := by
    have hpart := hm.part
    rcases hc.tell_take (carry {} gone) with he | he
    · rw [he] at hpart
      exact hpart.trans tell_take_prefix
    · rw [he, List.prefix_nil] at hpart
      rw [hpart]
      exact List.nil_prefix
  obtain ⟨more, hmore⟩ := hdone
  have hall : tell {} u.logs = tell {} gone ++ done ++ more := by
    rw [hlogs, TextLog.tell_append hm.readable, ← hmore, List.append_assoc]
  have hrowsv := (loadHistory_ok hv hrunv).1
  have hrowsu := (loadHistory_ok hu hrunu).1
  have hrowsw := hm.rows
  rw [settleAll_append] at hrowsw
  obtain ⟨rows, hfirst, hrest⟩ := Option.bind_eq_some_iff.mp hrowsw
  rw [hvr, ← htell, ← hmore, settleAll_again hrest] at hrowsv
  rw [hur, hall, List.append_assoc, settleAll_append, hfirst] at hrowsu
  exact Option.some.inj (hrowsv.symm.trans hrowsu)

end Tracker

end Lineage

/-! ## Logs that are corrected -/

namespace Lineage.Sample

open Tracker (loadHistory Corrected)
open TextLog (tell carry)

/-- The places of the two logs that a tracker finds. -/
def firstLog : Path := tracker.logDir.join "a.log"

def secondLog : Path := tracker.logDir.join "b.log"

/-- A tracker that finds two text logs. -/
def logged (first second : String) : World where
  host := { fresh.host with
    disk := {
      nodes := .ofList [(["tracker"], Node.directory),
        (["tracker", "compaction-log"], Node.directory),
        (["tracker", "compaction-log", "a.log"], Node.file 0),
        (["tracker", "compaction-log", "b.log"], Node.file 1)]
      contents := .ofList [(0, Bytes.ofText first), (1, Bytes.ofText second)]
      unused := 2 } }
  tracker := tracker

/-- The world once the tracker loaded its history, as far as it came. -/
def started (w : World) : World := (loadHistory.run.run w).2

theorem runs_started {w : World} {r : Except Tracker.Error Tracker.Loaded}
    (h : (loadHistory.run.run w).1 = r) : Runs loadHistory w r (started w) :=
  runs_of_fst h

/-- The second log is made to say something else, and the tracker starts anew. -/
def corrected (second : String) (w : World) : World :=
  restarted { w with
    host := { w.host with disk := w.host.disk.withContent 1 (Bytes.ofText second) } }

theorem rows_logged {first second : String} : (logged first second).host.history.rows = ∅ := rfl

theorem rows_corrected {second : String} {w : World} :
    (corrected second w).host.history.rows = w.host.history.rows := rfl

theorem tidy_of_names {w : World} (names : List String)
    (hnames : w.disk.namesIn w.tracker.logDir = .ok names) (h : ∀ n ∈ names, '/' ∉ n.toList)
    (hmemory : w.host.history.file? = none) : w.Tidy := by
  refine ⟨fun names' hnames' => ?_, fun p _ id _ => ?_⟩
  · cases hnames.symm.trans hnames'
    exact h
  · rw [hmemory]
    exact nofun

theorem nodes_logged {first second : String} :
    (logged first second).disk.nodes = (logged "" "").disk.nodes := by
  simp only [logged, World.disk]

theorem logged_spots : (logged "" "").disk.namesIn tracker.logDir = .ok ["a.log", "b.log"] ∧
    (logged "" "").disk.logPaths tracker.logDir = [firstLog, secondLog] ∧
    (logged "" "").disk.at? firstLog = some (.file 0) ∧
    (logged "" "").disk.at? secondLog = some (.file 1) := by
  decide +kernel

theorem logs_logged {first second : String} : (logged first second).logs =
    [⟨firstLog, Bytes.ofText first⟩, ⟨secondLog, Bytes.ofText second⟩] := by
  obtain ⟨-, hpaths, hfirst, hsecond⟩ := logged_spots
  have hfirst' := Disk.bytes_of_file ((Disk.at?_of_nodes nodes_logged).trans hfirst)
    (d := (logged first second).disk)
  have hsecond' := Disk.bytes_of_file ((Disk.at?_of_nodes nodes_logged).trans hsecond)
    (d := (logged first second).disk)
  have hpaths' : (logged first second).disk.logPaths (logged first second).tracker.logDir =
      [firstLog, secondLog] := (Disk.logPaths_of_nodes nodes_logged).trans hpaths
  rw [World.logs, hpaths', List.map_cons, List.map_cons, hfirst', hsecond']
  rfl

theorem tidy_logged {first second : String} : (logged first second).Tidy :=
  tidy_of_names _ ((Disk.namesIn_of_nodes nodes_logged).mpr logged_spots.1) (by decide) rfl

/-- Nothing of a log is taken that only failed to be read. -/
theorem corrected_singleton {f g : TextLog.File} (hpath : g.path = f.path)
    (h : (TextLog.Replay.run {} f.bytes).1.toOption = none) : Corrected [f] [g] := by
  refine .cons ⟨hpath, fun ⟨told, htold⟩ => ?_⟩ .nil
  rw [htold] at h
  cases h

/-- The second log can be read once it is corrected, and it takes nothing from the first one. -/
theorem loadHistory_corrected :
    ∃ v' u', Runs loadHistory (corrected "C 2 b:c\n" (started (logged "C 1 a:b\n" "C x b:c\n")))
        (.ok { logs := 1, logCompactions := 1, rows := 2 }) v' ∧
      Runs loadHistory (logged "C 1 a:b\n" "C 2 b:c\n")
        (.ok { logs := 2, logCompactions := 2, rows := 2 }) u' ∧
      v'.host.history.rows = u'.host.history.rows := by
  obtain ⟨hw, hleft, hfound, hnames, hmemory, hv⟩ :
      (loadHistory.run.run (logged "C 1 a:b\n" "C x b:c\n")).1 =
        .error (.textLog secondLog (.history (.line "C x b:c" .sequence))) ∧
      (started (logged "C 1 a:b\n" "C x b:c\n")).logs =
        [⟨secondLog, Bytes.ofText "C x b:c\n"⟩] ∧
      (corrected "C 2 b:c\n" (started (logged "C 1 a:b\n" "C x b:c\n"))).logs =
        [⟨secondLog, Bytes.ofText "C 2 b:c\n"⟩] ∧
      (corrected "C 2 b:c\n" (started (logged "C 1 a:b\n" "C x b:c\n"))).disk.namesIn
        tracker.logDir = .ok ["b.log"] ∧
      (corrected "C 2 b:c\n" (started (logged "C 1 a:b\n" "C x b:c\n"))).host.history.file? =
        none ∧
      (loadHistory.run.run
        (corrected "C 2 b:c\n" (started (logged "C 1 a:b\n" "C x b:c\n")))).1 =
          .ok { logs := 1, logCompactions := 1, rows := 2 } := by
    decide +kernel
  have hu : Runs loadHistory (logged "C 1 a:b\n" "C 2 b:c\n")
      (.ok { logs := 2, logCompactions := 2, rows := 2 }) _ := runs_started (by decide +kernel)
  obtain ⟨gone, hgone, hsame⟩ := Tracker.loadHistory_restart tidy_logged (runs_started hw)
  rw [logs_logged, hleft] at hgone
  have hgone : gone = [⟨firstLog, Bytes.ofText "C 1 a:b\n"⟩] :=
    List.append_cancel_right (hgone.symm.trans rfl)
  subst hgone
  have hvtidy : (corrected "C 2 b:c\n" (started (logged "C 1 a:b\n" "C x b:c\n"))).Tidy :=
    tidy_of_names ["b.log"] hnames (by decide) hmemory
  have hcorrected : Corrected (started (logged "C 1 a:b\n" "C x b:c\n")).logs
      (corrected "C 2 b:c\n" (started (logged "C 1 a:b\n" "C x b:c\n"))).logs := by
    rw [hleft, hfound]
    exact corrected_singleton rfl (by decide +kernel)
  have htell : tell (carry {} [⟨firstLog, Bytes.ofText "C 1 a:b\n"⟩])
      (corrected "C 2 b:c\n" (started (logged "C 1 a:b\n" "C x b:c\n"))).logs =
        tell {} (corrected "C 2 b:c\n" (started (logged "C 1 a:b\n" "C x b:c\n"))).logs := by
    rw [hfound]
    decide +kernel
  have hlogs : (logged "C 1 a:b\n" "C 2 b:c\n").logs = [⟨firstLog, Bytes.ofText "C 1 a:b\n"⟩] ++
      (corrected "C 2 b:c\n" (started (logged "C 1 a:b\n" "C x b:c\n"))).logs := by
    rw [logs_logged, hfound]
    rfl
  have hrows := hsame hvtidy tidy_logged rows_corrected (rows_logged.trans rows_logged.symm)
    hcorrected hlogs htell (runs_started hv) hu
  exact ⟨_, _, runs_started hv, hu, hrows⟩

/-- The second log, which could not be read at first, lacks the time that the first one told. -/
theorem not_loadHistory_restart :
    Runs loadHistory (logged "S 5 snap 777\n" "C x a:b\n")
        (.error (.textLog secondLog (.history (.line "C x a:b" .sequence))))
        (started (logged "S 5 snap 777\n" "C x a:b\n")) ∧
      (logged "S 5 snap 777\n" "C x a:b\n").logs =
        [⟨firstLog, Bytes.ofText "S 5 snap 777\n"⟩, ⟨secondLog, Bytes.ofText "C x a:b\n"⟩] ∧
      (corrected "C 9 a:b\n" (started (logged "S 5 snap 777\n" "C x a:b\n"))).logs =
        [⟨secondLog, Bytes.ofText "C 9 a:b\n"⟩] ∧
      (logged "S 5 snap 777\n" "C 9 a:b\n").logs =
        [⟨firstLog, Bytes.ofText "S 5 snap 777\n"⟩, ⟨secondLog, Bytes.ofText "C 9 a:b\n"⟩] ∧
      ∃ v' u', Runs loadHistory
          (corrected "C 9 a:b\n" (started (logged "S 5 snap 777\n" "C x a:b\n")))
          (.ok { logs := 1, logCompactions := 1, rows := 1 }) v' ∧
        Runs loadHistory (logged "S 5 snap 777\n" "C 9 a:b\n")
          (.ok { logs := 2, logCompactions := 1, rows := 1 }) u' ∧
        v'.host.history.rows.toList = [((named 9 0 "a" "b").key, (named 9 0 "a" "b").encode)] ∧
        u'.host.history.rows.toList =
          [((named 9 777 "a" "b").key, (named 9 777 "a" "b").encode)] ∧
        v'.host.history.rows ≠ u'.host.history.rows := by
  obtain ⟨hw, hfound, hv, hvrows⟩ :
      (loadHistory.run.run (logged "S 5 snap 777\n" "C x a:b\n")).1 =
        .error (.textLog secondLog (.history (.line "C x a:b" .sequence))) ∧
      (corrected "C 9 a:b\n" (started (logged "S 5 snap 777\n" "C x a:b\n"))).logs =
        [⟨secondLog, Bytes.ofText "C 9 a:b\n"⟩] ∧
      (loadHistory.run.run
        (corrected "C 9 a:b\n" (started (logged "S 5 snap 777\n" "C x a:b\n")))).1 =
          .ok { logs := 1, logCompactions := 1, rows := 1 } ∧
      (started (corrected "C 9 a:b\n" (started (logged "S 5 snap 777\n" "C x a:b\n")))
        ).host.history.rows.toList = [((named 9 0 "a" "b").key, (named 9 0 "a" "b").encode)] := by
    decide +kernel
  obtain ⟨hu, hurows, hne⟩ :
      (loadHistory.run.run (logged "S 5 snap 777\n" "C 9 a:b\n")).1 =
        .ok { logs := 2, logCompactions := 1, rows := 1 } ∧
      (started (logged "S 5 snap 777\n" "C 9 a:b\n")).host.history.rows.toList =
        [((named 9 777 "a" "b").key, (named 9 777 "a" "b").encode)] ∧
      [((named 9 0 "a" "b").key, (named 9 0 "a" "b").encode)] ≠
        [((named 9 777 "a" "b").key, (named 9 777 "a" "b").encode)] := by
    decide +kernel
  refine ⟨runs_started hw, logs_logged, hfound, logs_logged, _, _, runs_started hv,
    runs_started hu, hvrows, hurows, fun he => hne ?_⟩
  exact hvrows.symm.trans ((congrArg Std.ExtTreeMap.toList he).trans hurows)

end Lineage.Sample
