import Lineage.Proofs.Loading
import Lineage.Proofs.Stripping

/-!
# What upkeep reaches

Names of files come to a tracker from the paths of jobs and from text logs. A name from a path has
no slash. While no name from a text log has one, no row and no edge of the graph ever does
(`Produced.plain`), and upkeep, however it ends, takes away, puts and makes files nowhere but right
inside the backup directory (`Produced.confined`).
-/

namespace Lineage

open World (onDisk onHost update)

variable {c : Compaction} {n x : String}

/-! ## Names in the graph -/

/-- The ends of all edges are names without slashes. -/
def Graph.Plain (g : Graph) : Prop := ∀ n x, x ∈ g.olderThan n → Unslashed n ∧ Unslashed x

theorem Graph.plain_empty : Graph.Plain {} := by
  intro n x hx
  rw [olderThan, Std.ExtTreeMap.getD_empty] at hx
  exact absurd hx Std.ExtTreeSet.not_mem_empty

theorem Graph.Plain.addCompaction {g : Graph} (h : g.Plain) (hc : c.Plain) :
    (g.addCompaction c).Plain := by
  intro n x hx
  rcases mem_olderThan_addCompaction.mp hx with hx | ⟨hn, hx, -⟩
  · exact h n x hx
  · exact ⟨hc.outputs n hn, hc.inputs x hx⟩

namespace Tracker

variable {w w₁ w' : World} {rows rows' : Rows} {cs : List Compaction} {store : Store}
  {now : UInt64} {j : Job}

/-! ## Names in a world -/

/-- No row and no edge of the graph has a name with a slash. -/
structure Plain (w : World) : Prop where
  rows : PlainRows w.host.history.rows
  graph : w.tracker.graph.Plain
  flight : w.tracker.NamesFlight

theorem Plain.scrubs (h : Plain w) (hs : Scrubs w w') : Plain w' := by
  have hgraph : w'.tracker.uncounted.graph = w.tracker.graph := by
    rw [hs.tracker]
    rfl
  have hflight : w'.tracker.uncounted.inFlight = w.tracker.inFlight := by
    rw [hs.tracker]
    rfl
  refine ⟨hs.rows h.rows, ?_, ?_⟩
  · change w'.tracker.uncounted.graph.Plain
    rw [hgraph]
    exact h.graph
  · change w'.tracker.uncounted.NamesFlight
    rw [NamesFlight, hflight]
    exact h.flight

theorem Plain.expires {names : Names} (h : Plain w) (he : Expires names w w') : Plain w' where
  rows := fun k v hk => h.rows k v (he.rows k v hk)
  graph := fun n x hx => h.graph n x ((he.edges n x).mp hx).1
  flight := by
    rw [he.tracker]
    exact h.flight

/-- Only what has a name without a slash expires. -/
theorem Plain.consumed (h : Plain w) (hn : Consumed w n) : Unslashed n := by
  rcases hn with ⟨m, hm⟩ | ⟨key, value, c, hv, hc, hn⟩
  · exact (h.graph m n hm).2
  · exact (h.rows.readRow hv hc).inputs n hn

/-! ## Upkeep -/

theorem Plain.spares_expireHistory {r : Except UpkeepError Expired} (h : Plain w)
    (hr : Runs (expireHistory now) w r w') : w.disk.Spares w.tracker.InBackups w'.disk := by
  obtain ⟨names, hexp, hconsumed⟩ := runs_expireHistory hr
  refine hexp.disk.spares.mono fun q hq => inBackups_of_backupSpots (fun n hn => ?_) hq
  exact h.consumed (hconsumed n (Std.ExtTreeSet.mem_toList.mp hn))

theorem Plain.spares_dropOutputBackups {r : Except UpkeepError Nat} (h : Plain w)
    (hr : Runs dropOutputBackups w r w') : w.disk.Spares w.tracker.InBackups w'.disk := by
  rcases runs_dropOutputBackups hr with ⟨-, rfl⟩ | ⟨-, hr⟩
  · exact Frame.refl _
  · refine (removeBackups_within hr).2.spares.mono fun q hq => ?_
    refine inBackups_of_backupSpots (fun n hn => ?_) hq
    obtain ⟨x, hx⟩ := Graph.mem_outputNames.mp hn
    exact (h.graph n x hx).1

theorem Plain.dropOutputBackups {r : Except UpkeepError Nat} (h : Plain w)
    (hr : Runs dropOutputBackups w r w') : Plain w' := by
  rcases runs_dropOutputBackups hr with ⟨-, rfl⟩ | ⟨-, hr⟩
  · exact h
  · have hrest := (removeBackups_within hr).1
    have htracker : w'.tracker = w.tracker := congrArg Prod.fst hrest
    have hhistory : w'.host.history = w.host.history := congrArg (fun r => r.2.1) hrest
    exact ⟨hhistory ▸ h.rows, htracker ▸ h.graph, htracker ▸ h.flight⟩

/-! ## Jobs -/

/-- A recorded compaction has its names from paths. -/
theorem names_of_compactionOf (ht : w.tracker.NamesFlight)
    (hc : w.tracker.compactionOf store now j = .ok c) :
    (∀ n ∈ c.inputNames, Unslashed n) ∧ ∀ n ∈ c.outputNames, Unslashed n := by
  have hslash {infos : List FileInfo} {files : List Path}
      (h : infosOf store.live files = .ok infos) : ∀ n ∈ infos.map FileInfo.name, Unslashed n := by
    intro n hn
    obtain ⟨i, hi, rfl⟩ := List.mem_map.mp hn
    have hmem : some i.name ∈ files.map SortedTable.nameAt? := by
      rw [map_name_of_infosOf h]
      exact List.mem_map_of_mem hi
    obtain ⟨p, -, hp⟩ := List.mem_map.mp hmem
    exact SortedTable.unslashed_of_nameAt? hp
  obtain ⟨inputs, outputs, hin, hout, rfl⟩ := compactionOf_eq_ok.mp hc
  refine ⟨?_, hslash hout⟩
  have hkept : (inputs.map w.tracker.remembered).map FileInfo.name = inputs.map FileInfo.name := by
    rw [List.map_map]
    exact List.map_congr_left fun i _ => ht.remembered i
  rw [Compaction.inputNames, hkept]
  exact hslash hin

theorem Plain.beginJob {r : Except Error Unit} (h : Plain w) (hr : Runs (beginJob store j) w r w') :
    Plain w' := by
  obtain ⟨htracker, hhistory, -⟩ := runs_beginJob hr
  rcases htracker with htracker | ⟨infos, htracker⟩
  · exact ⟨hhistory ▸ h.rows, htracker ▸ h.graph, htracker ▸ h.flight⟩
  · exact ⟨hhistory ▸ h.rows, htracker ▸ h.graph, htracker ▸ h.flight.remember infos⟩

theorem Plain.completeJob {r : Except Error Unit} (h : Plain w)
    (hfits : ∀ c, w.tracker.compactionOf store now j = .ok c → c.Fits)
    (hr : Runs (completeJob store now j) w r w') : Plain w' := by
  cases r with
  | error e =>
    obtain ⟨htracker, hhistory⟩ := completeJob_error hr
    exact ⟨hhistory ▸ h.rows, htracker ▸ h.graph, htracker ▸ h.flight⟩
  | ok u =>
    rcases completeJob_ok hr with ⟨-, rfl⟩ | ⟨-, -, rfl⟩ | ⟨-, -, c, hc, ⟨-, ha⟩ | ⟨-, hrec⟩⟩
    · exact h
    · exact ⟨h.rows, h.graph, h.flight.forget _⟩
    · exact ⟨ha.history ▸ h.rows, ha.tracker ▸ h.graph, ha.tracker ▸ h.flight⟩
    · obtain ⟨hinputs, houtputs⟩ := names_of_compactionOf h.flight hc
      have hplain : c.Plain := ⟨hfits c hc, hinputs, houtputs⟩
      refine ⟨?_, ?_, ?_⟩
      · rw [hrec.rows]
        exact h.rows.insert hplain
      · rw [hrec.tracker, graph_recorded]
        exact h.graph.addCompaction hplain
      · rw [hrec.tracker]
        exact h.flight.recorded _

/-! ## Text logs -/

theorem PlainRows.settle (h : PlainRows rows) (hc : c.Plain) (hs : settle rows c = some rows') :
    PlainRows rows' := by
  fun_induction Tracker.settle rows c with
  | case1 c hnone =>
    cases hs
    exact h.insert hc
  | case2 c hrow =>
    cases hs
    exact h
  | case3 c row hrow hne hlt ih =>
    exact ih ⟨⟨hc.fits.inputs, hc.fits.outputs, hc.fits.reason⟩, hc.inputs, hc.outputs⟩ hs
  | case4 => cases hs

theorem PlainRows.settleAll (h : PlainRows rows) (hcs : ∀ c ∈ cs, c.Plain)
    (hs : settleAll rows cs = some rows') : PlainRows rows' := by
  induction cs generalizing rows with
  | nil =>
    cases hs
    exact h
  | cons c cs ih =>
    rw [List.forall_mem_cons] at hcs
    rw [settleAll_cons] at hs
    obtain ⟨rows₁, hfirst, hrest⟩ := Option.bind_eq_some_iff.mp hs
    exact ih (h.settle hcs.1 hfirst) hcs.2 hrest

theorem PlainRows.readRows {read : List (Bytes × Compaction)} (h : PlainRows rows)
    (hr : readRows rows.toList = .ok read) : ∀ row ∈ read, row.2.Plain := by
  intro row hrow
  obtain ⟨⟨key, value⟩, hmem, hread⟩ := exists_of_mem_mapM hr hrow
  rw [Std.ExtTreeMap.mem_toList_iff_getElem?_eq_some] at hmem
  dsimp only at hread
  cases hc : History.readRow value with
  | error e =>
    rw [hc] at hread
    cases hread
  | ok c =>
    rw [hc] at hread
    cases hread
    exact h.readRow hmem hc

theorem plain_foldl_load {read : List (Bytes × Compaction)} {t : Tracker} (hg : t.graph.Plain)
    (hf : t.NamesFlight) (hread : ∀ row ∈ read, row.2.Plain) :
    (read.foldl load t).graph.Plain ∧ (read.foldl load t).NamesFlight := by
  induction read generalizing t with
  | nil => exact ⟨hg, hf⟩
  | cons row read ih =>
    rw [List.forall_mem_cons] at hread
    refine ih ?_ ?_ hread.2
    · rw [graph_load]
      exact hg.addCompaction hread.1
    · rw [load_eq]
      split
      · rw [NamesFlight, inFlight_enqueue]
        exact hf
      · exact hf

theorem Plain.loadHistory {r : Except Error Loaded} (h : Plain w) (ht : w.Tidy)
    (htold : ∀ c ∈ TextLog.tell {} w.logs, c.Plain) (hr : Runs loadHistory w r w') : Plain w' := by
  obtain ⟨gone, done, hm, -⟩ := runs_loadHistory ht hr
  have hrows : PlainRows w'.host.history.rows := by
    refine h.rows.settleAll (fun c hc => htold c ?_) hm.rows
    rw [hm.logs, TextLog.tell_append hm.readable]
    rcases List.mem_append.mp hc with hc | hc
    · exact List.mem_append_left _ hc
    · exact List.mem_append_right _ ((hm.part.trans tell_take_prefix).mem hc)
  rcases tracker_of_loadHistory hr with htracker | ⟨read, hread, htracker⟩
  · exact ⟨hrows, htracker ▸ h.graph, htracker ▸ h.flight⟩
  · obtain ⟨hgraph, hflight⟩ := plain_foldl_load h.graph h.flight (hrows.readRows hread)
    exact ⟨hrows, htracker ▸ hgraph, htracker ▸ hflight⟩

/-! ## Runs -/

/-- Worlds that a tracker comes to which starts with an empty history: events are told to it, text
logs are found whose compactions name files without slashes, and upkeep is done, all of it ending
one way or the other. In between, everything but rows and graph may change, and the tracker may
start anew. -/
inductive Produced : World → Prop where
  | fresh {w : World} (rows : w.host.history.rows = ∅) (graph : w.tracker.graph = {})
      (flight : w.tracker.inFlight = ∅) : Produced w
  | begin {w w' : World} {store : Store} {j : Job} {r : Except Error Unit} (before : Produced w)
      (ran : Runs (beginJob store j) w r w') : Produced w'
  | complete {w w' : World} {store : Store} {now : UInt64} {j : Job} {r : Except Error Unit}
      (before : Produced w) (fits : ∀ c, w.tracker.compactionOf store now j = .ok c → c.Fits)
      (ran : Runs (completeJob store now j) w r w') : Produced w'
  | load {w w' : World} {r : Except Error Loaded} (before : Produced w) (tidy : w.Tidy)
      (told : ∀ c ∈ TextLog.tell {} w.logs, c.Plain) (ran : Runs loadHistory w r w') : Produced w'
  | expire {w w' : World} {now : UInt64} {r : Except UpkeepError Expired} (before : Produced w)
      (ran : Runs (expireHistory now) w r w') : Produced w'
  | drop {w w' : World} {r : Except UpkeepError Nat} (before : Produced w)
      (ran : Runs dropOutputBackups w r w') : Produced w'
  | strip {w w' : World} {r : Except UpkeepError StripRun} (before : Produced w)
      (ran : Runs stripBackups w r w') : Produced w'
  | change {w w' : World} (before : Produced w)
      (rows : w'.host.history.rows = w.host.history.rows)
      (graph : w'.tracker.graph = w.tracker.graph)
      (flight : w'.tracker.inFlight = w.tracker.inFlight) : Produced w'
  | restart {w w' : World} (before : Produced w)
      (rows : w'.host.history.rows = w.host.history.rows) (graph : w'.tracker.graph = {})
      (flight : w'.tracker.inFlight = ∅) : Produced w'

theorem plain_of_fresh (hrows : PlainRows w.host.history.rows) (hgraph : w.tracker.graph = {})
    (hflight : w.tracker.inFlight = ∅) : Plain w where
  rows := hrows
  graph := hgraph ▸ Graph.plain_empty
  flight n i hi := by
    rw [hflight, Std.ExtTreeMap.getElem?_empty] at hi
    cases hi

theorem Produced.plain (h : Produced w) : Plain w := by
  induction h with
  | fresh rows graph flight =>
    refine plain_of_fresh (fun k v hk => ?_) graph flight
    rw [rows, Std.ExtTreeMap.getElem?_empty] at hk
    cases hk
  | begin _ ran ih => exact ih.beginJob ran
  | complete _ fits ran ih => exact ih.completeJob fits ran
  | load _ tidy told ran ih => exact ih.loadHistory tidy told ran
  | expire _ ran ih =>
    obtain ⟨names, hexp, -⟩ := runs_expireHistory ran
    exact ih.expires hexp
  | drop _ ran ih => exact ih.dropOutputBackups ran
  | strip _ ran ih => exact ih.scrubs (scrubs_stripBackups ih.rows ran)
  | change _ rows graph flight ih =>
    refine ⟨rows ▸ ih.rows, graph ▸ ih.graph, ?_⟩
    rw [NamesFlight, flight]
    exact ih.flight
  | restart _ rows graph flight ih => exact plain_of_fresh (rows ▸ ih.rows) graph flight

/-- Upkeep takes away, puts and makes files nowhere but right inside the backup directory. -/
theorem Produced.confined (h : Produced w) :
    (∀ now r w', Runs (expireHistory now) w r w' →
      w.disk.Spares w.tracker.InBackups w'.disk) ∧
    (∀ r w', Runs dropOutputBackups w r w' → w.disk.Spares w.tracker.InBackups w'.disk) ∧
    ∀ r w', Runs stripBackups w r w' → w.disk.Spares w.tracker.InBackups w'.disk :=
  ⟨fun _ _ _ ran => h.plain.spares_expireHistory ran,
    fun _ _ ran => h.plain.spares_dropOutputBackups ran,
    fun _ _ ran => (scrubs_stripBackups h.plain.rows ran).disk⟩

end Tracker

end Lineage

/-! ## A name that leads out of the backups -/

namespace Lineage.Sample

open Tracker (loadHistory expireHistory Produced)

/-- A tracker that finds a text log, with a backup of the table `x` and a file of that name beside
the backup directory. -/
def beside (log : String) : World where
  host := { fresh.host with
    disk := {
      nodes := .ofList [(["tracker"], Node.directory),
        (["tracker", "compaction-log"], Node.directory),
        (["tracker", "compaction-log", "a.log"], Node.file 0),
        (["tracker", "compaction-sst-backup"], Node.directory),
        (["tracker", "compaction-sst-backup", "x.sst"], Node.file 1),
        (["tracker", "x.sst"], Node.file 2)]
      contents := .ofList [(0, Bytes.ofText log)]
      unused := 3 } }
  tracker := tracker

/-- A time at which the compactions of those logs have expired. -/
def month : UInt64 := 2592000000

/-- The world once history expired, as far as it came. -/
def monthLater (w : World) : World := ((expireHistory month).run.run w).2

theorem runs_monthLater {w : World} {r : Except Tracker.UpkeepError Tracker.Expired}
    (h : ((expireHistory month).run.run w).1 = r) : Runs (expireHistory month) w r (monthLater w) :=
  runs_of_fst h

theorem tidy_beside {log : String} : (beside log).Tidy := by
  have hnames : (beside "").disk.namesIn tracker.logDir = .ok ["a.log"] := by decide +kernel
  have hnodes : (beside log).disk.nodes = (beside "").disk.nodes := by
    simp only [beside, World.disk]
  exact tidy_of_names _ ((Disk.namesIn_of_nodes hnodes).mpr hnames) (by decide) rfl

theorem plain_named : (named 5 0 "x" "y").Plain := by
  refine ⟨fits_named (short_names "x" (by simp)) (short_names "y" (by simp)), ?_, ?_⟩
  · exact List.forall_mem_singleton.mpr (show '/' ∉ "x".toList by decide)
  · exact List.forall_mem_singleton.mpr (show '/' ∉ "y".toList by decide)

/-- The backup of a table that expires goes, and nothing outside of the backups does. -/
theorem confined_expired : Produced (started (beside "C 5 x:y\n")) ∧
    Runs (expireHistory month) (started (beside "C 5 x:y\n"))
      (.ok { compactions := 1, names := {"x"}, backups := 1 })
      (monthLater (started (beside "C 5 x:y\n"))) ∧
    (started (beside "C 5 x:y\n")).disk.Spares (started (beside "C 5 x:y\n")).tracker.InBackups
      (monthLater (started (beside "C 5 x:y\n"))).disk := by
  obtain ⟨hload, hlogs, hexpire⟩ :
      (loadHistory.run.run (beside "C 5 x:y\n")).1 =
        .ok { logs := 1, logCompactions := 1, rows := 1 } ∧
      TextLog.tell {} (beside "C 5 x:y\n").logs = [named 5 0 "x" "y"] ∧
      ((expireHistory month).run.run (started (beside "C 5 x:y\n"))).1 =
        .ok { compactions := 1, names := {"x"}, backups := 1 } := by
    decide +kernel
  have htold : ∀ c ∈ TextLog.tell {} (beside "C 5 x:y\n").logs, c.Plain := by
    rw [hlogs]
    exact List.forall_mem_singleton.mpr plain_named
  have hproduced : Produced (started (beside "C 5 x:y\n")) :=
    .load (.fresh rfl rfl rfl) tidy_beside htold (runs_started hload)
  have hspares := hproduced.confined.1 _ _ _ (runs_monthLater hexpire)
  exact ⟨hproduced, runs_monthLater hexpire, hspares⟩

/-- A name from a text log that leads up makes expiry remove a file outside of the backups. -/
theorem not_confined :
    Runs loadHistory (beside "C 5 ../x:y\n")
        (.ok { logs := 1, logCompactions := 1, rows := 1 }) (started (beside "C 5 ../x:y\n")) ∧
      Runs (expireHistory month) (started (beside "C 5 ../x:y\n"))
        (.ok { compactions := 1, names := {"../x"}, backups := 1 })
        (monthLater (started (beside "C 5 ../x:y\n"))) ∧
      ¬ (started (beside "C 5 ../x:y\n")).tracker.InBackups ["tracker", "x.sst"] ∧
      (started (beside "C 5 ../x:y\n")).disk.node? ["tracker", "x.sst"] = some (.file 2) ∧
      (monthLater (started (beside "C 5 ../x:y\n"))).disk.node? ["tracker", "x.sst"] = none ∧
      ¬ (started (beside "C 5 ../x:y\n")).disk.Spares
        (started (beside "C 5 ../x:y\n")).tracker.InBackups
        (monthLater (started (beside "C 5 ../x:y\n"))).disk := by
  obtain ⟨hload, hdir, hfile, hexpire, hgone⟩ :
      (loadHistory.run.run (beside "C 5 ../x:y\n")).1 =
        .ok { logs := 1, logCompactions := 1, rows := 1 } ∧
      (started (beside "C 5 ../x:y\n")).tracker.backupDir.spot =
        ["tracker", "compaction-sst-backup"] ∧
      (started (beside "C 5 ../x:y\n")).disk.node? ["tracker", "x.sst"] = some (.file 2) ∧
      ((expireHistory month).run.run (started (beside "C 5 ../x:y\n"))).1 =
        .ok { compactions := 1, names := {"../x"}, backups := 1 } ∧
      (monthLater (started (beside "C 5 ../x:y\n"))).disk.node? ["tracker", "x.sst"] = none := by
    decide +kernel
  have hout : ¬ (started (beside "C 5 ../x:y\n")).tracker.InBackups ["tracker", "x.sst"] := by
    rintro ⟨s, hs⟩
    rw [hdir] at hs
    exact absurd (congrArg List.length hs) (by simp)
  refine ⟨runs_started hload, runs_monthLater hexpire, hout, hfile, hgone, fun hspares => ?_⟩
  have hstill := (hspares _ 2 hout).mpr hfile
  rw [hgone] at hstill
  cases hstill

end Lineage.Sample
