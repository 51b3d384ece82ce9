import Lineage.Proofs.Disk.Removals
import Lineage.Proofs.Graph.Replaying
import Lineage.Proofs.Migration.Restart

/-!
# Loading is all or nothing

Loading the history changes the tracker in its last step only (`loadHistory_cases`): one that fails
leaves it as it was, and one that goes through puts in all rows, in the order of their keys. By then
every log that was found is gone, so a second one finds no log, and the rows are known to the graph
and to the queue already (`loadHistory_again`).
-/

namespace Lineage

open World (onDisk onHost update)

/-! ## Names that go -/

namespace Disk

variable {d d' : Disk} {p dir : Path} {q : Place} {n : Node} {names names' : List String}

/-- A directory is there still, with no more names than it had. -/
theorem Sheds.namesIn (h : Sheds d d') (hd : d.namesIn dir = .ok names) :
    ∃ names', d'.namesIn dir = .ok names' ∧ ∀ n ∈ names', n ∈ names := by
  obtain ⟨hat, rfl⟩ := namesIn_eq_ok.mp hd
  obtain ⟨hplace, hnode⟩ := Disk.at?_eq_some.mp hat
  refine ⟨d'.namesAt dir.spot, namesIn_eq_ok.mpr ⟨Disk.at?_eq_some.mpr
    ⟨place_mono (fun _ => h.directory.mpr) hplace, h.directory.mpr hnode⟩, rfl⟩, fun n hn => ?_⟩
  obtain ⟨k, hk, hkn⟩ := List.mem_filterMap.mp hn
  refine List.mem_filterMap.mpr ⟨k, ?_, hkn⟩
  have hne : k ≠ [] := by
    rw [nameUnder?_eq_some.mp hkn]
    exact List.append_ne_nil_of_right_ne_nil _ (List.cons_ne_nil _ _)
  rw [Std.ExtTreeMap.mem_keys, Std.ExtTreeMap.mem_iff_isSome_getElem?, ← node?_eq hne] at hk ⊢
  obtain ⟨m, hm⟩ := Option.isSome_iff_exists.mp hk
  rw [h.node?_eq_some hm]
  rfl

end Disk

namespace Tracker

variable {w w' : World} {rep : TextLog.Replay} {s s' : Loaded} {ps : List Path} {t : Tracker}
  {rows : List (Bytes × Compaction)}

/-! ## Logs -/

/-- Logs that were replayed are no files any more. -/
theorem sheds_migrateLogs (h : Runs (migrateLogs rep s ps) w (.ok s') w') :
    w.disk.Sheds w'.disk ∧ ∀ p ∈ ps, w'.disk.isFile p = false := by
  induction ps generalizing w rep s with
  | nil =>
    obtain ⟨-, rfl⟩ := runs_pure.mp h
    exact ⟨Frame.refl _, nofun⟩
  | cons p ps ih =>
    rw [migrateLogs] at h
    obtain ⟨⟨x, rep'⟩, w₁, hfile, h⟩ := runs_bind_ok.mp h
    obtain ⟨cs, w₂, hcs, h⟩ := runs_bind_ok.mp h
    obtain ⟨added, w₃, hall, h⟩ := runs_bind_ok.mp h
    obtain ⟨u, w₄, hremove, h⟩ := runs_bind_ok.mp h
    obtain ⟨-, rfl⟩ := runs_ofExcept.mp hcs
    have hread : w.disk.Sheds w₂.disk := by
      obtain ⟨d, hd, rfl⟩ := World.runs_onDisk_ok.mp hfile
      obtain ⟨res, hread, -⟩ := TextLog.Replay.runs_runFile_iff.mp hd
      rw [(Disk.runs_query.mp hread).1]
      exact .of_nodes rfl
    have hstored : w₂.disk.Sheds w₃.disk := .of_nodes (runs_migrateAll hall).1.disk.nodes
    obtain ⟨d, hd, rfl⟩ := World.runs_onDisk_ok.mp hremove
    have hcleared := Disk.cleared_removeFile (Disk.runs_removeFile_ok.mp hd).1 hd
    obtain ⟨hrest, hps⟩ := ih h
    refine ⟨Frame.trans hread (Frame.trans hstored (Frame.trans hcleared.toSheds hrest)),
      List.forall_mem_cons.mpr ⟨?_, hps⟩⟩
    have hgone := hcleared.gone p (List.mem_singleton_self p)
    rw [← Bool.not_eq_true] at hgone ⊢
    exact mt hrest.isFile hgone

theorem runs_textLogs_ok : Runs textLogs w (.ok ps) w' ↔ w.disk.outage 0 .list = none ∧
    (∃ names, w.disk.namesIn w.tracker.logDir = .ok names) ∧
    ps = w.disk.logPaths w.tracker.logDir ∧
    w' = { w with host := { w.host with
      disk := { w.disk with outage := w.disk.outage.later } } } := by
  have hnames {names : List String} : Disk.namesIn { w.disk with outage := w.disk.outage.later }
      w.tracker.logDir = .ok names ↔ w.disk.namesIn w.tracker.logDir = .ok names :=
    Disk.namesIn_of_nodes rfl
  have hlist {names : List String} {d : Disk} :
      Runs (Disk.listDirectory w.tracker.logDir) w.disk (.ok names) d ↔
        w.disk.outage 0 .list = none ∧ w.disk.namesIn w.tracker.logDir = .ok names ∧
          d = { w.disk with outage := w.disk.outage.later } := by
    rw [Disk.listDirectory, Disk.runs_query, ← hnames]
    cases w.disk.outage 0 .list with
    | none =>
      constructor
      · rintro ⟨hd, hok⟩
        exact ⟨rfl, hok.symm, hd⟩
      · rintro ⟨-, hok, hd⟩
        exact ⟨hd, hok.symm⟩
    | some fault =>
      constructor
      · rintro ⟨-, h⟩
        cases h
      · rintro ⟨h, -⟩
        cases h
  have hfile : Disk.isFile { w.disk with outage := w.disk.outage.later } = w.disk.isFile :=
    funext fun p => Disk.isFile_eq Disk.Within.at?_later
  rw [textLogs, runs_get_bind, runs_bind_ok]
  constructor
  · rintro ⟨names, w₁, hrun, h⟩
    obtain ⟨d, hd, rfl⟩ := World.runs_onDisk_ok.mp hrun
    obtain ⟨hnone, hok, rfl⟩ := hlist.mp hd
    rw [runs_get_bind] at h
    obtain ⟨hps, rfl⟩ := runs_pure.mp h
    refine ⟨hnone, ⟨names, hok⟩, ?_, rfl⟩
    rw [Except.ok.inj hps, Disk.logPaths, hok, ← hfile]
  · rintro ⟨hnone, ⟨names, hok⟩, rfl, rfl⟩
    refine ⟨names, _, World.runs_onDisk_ok.mpr ⟨_, hlist.mpr ⟨hnone, hok, rfl⟩, rfl⟩, ?_⟩
    rw [runs_get_bind]
    refine runs_pure.mpr ⟨?_, rfl⟩
    rw [Disk.logPaths, hok, ← hfile]

/-! ## Rows -/

theorem options_load (row : Bytes × Compaction) : (t.load row).options = t.options := by
  rw [load_eq]
  split
  · rw [options_enqueue]
  · rfl

theorem queue_load (row : Bytes × Compaction) : (t.load row).queue =
    if t.options.stripValues ∧ row.1 ∉ t.queue then t.queue ++ [row.1] else t.queue := by
  rw [load_eq, enqueue]
  by_cases hs : t.options.stripValues <;> by_cases hrow : row.1 ∈ t.queue <;> simp [hs, hrow]

/-- The keys that the queue lacks are added at its end. -/
theorem queue_foldl_load (hkeys : (rows.map Prod.fst).Nodup) : (rows.foldl load t).queue =
    if t.options.stripValues then t.queue ++ (rows.map Prod.fst).filter (· ∉ t.queue)
    else t.queue := by
  induction rows generalizing t with
  | nil => simp
  | cons row rows ih =>
    rw [List.map_cons, List.nodup_cons] at hkeys
    rw [List.foldl_cons, ih hkeys.2, options_load, queue_load, List.map_cons]
    by_cases hs : t.options.stripValues
    swap
    · simp [hs]
    by_cases hrow : row.1 ∈ t.queue
    · simp [hs, hrow]
    · have hrest : (rows.map Prod.fst).filter (· ∉ t.queue ++ [row.1]) =
          (rows.map Prod.fst).filter (· ∉ t.queue) := by
        refine List.filter_congr fun k hk => ?_
        have hne : k ≠ row.1 := fun he => hkeys.1 (he ▸ hk)
        simp [hne]
      rw [if_pos hs, if_pos hs, if_pos ⟨hs, hrow⟩, hrest, List.filter_cons_of_pos (by simpa using hrow),
        List.append_assoc, List.singleton_append]

/-- Where all keys are in the queue, loading adds to the graph alone. -/
theorem foldl_load_of_queued (h : t.options.stripValues = true → ∀ row ∈ rows, row.1 ∈ t.queue) :
    rows.foldl load t =
      { t with graph := (rows.map Prod.snd).foldl Graph.addCompaction t.graph } := by
  induction rows generalizing t with
  | nil => rfl
  | cons row rows ih =>
    have hload : t.load row = { t with graph := t.graph.addCompaction row.2 } := by
      rw [load_eq]
      split
      · rename_i hs
        exact if_pos (List.contains_iff_mem.mpr (h hs row List.mem_cons_self))
      · rfl
    refine (congrArg (rows.foldl load) hload).trans (ih fun hs r hr => ?_)
    exact h hs r (List.mem_cons_of_mem row hr)

theorem options_foldl_load : (rows.foldl load t).options = t.options := by
  induction rows generalizing t with
  | nil => rfl
  | cons row rows ih => rw [List.foldl_cons, ih, options_load]

/-- Rows that were loaded are loaded again to no effect. -/
theorem foldl_load_again (hkeys : (rows.map Prod.fst).Nodup) :
    rows.foldl load (rows.foldl load t) = rows.foldl load t := by
  have hqueued : (rows.foldl load t).options.stripValues = true →
      ∀ row ∈ rows, row.1 ∈ (rows.foldl load t).queue := by
    intro hs row hrow
    rw [options_foldl_load] at hs
    rw [queue_foldl_load hkeys, if_pos hs, List.mem_append]
    by_cases hold : row.1 ∈ t.queue
    · exact .inl hold
    · exact .inr (List.mem_filter.mpr ⟨List.mem_map_of_mem hrow, decide_eq_true hold⟩)
  have hgraph : (rows.map Prod.snd).foldl Graph.addCompaction (rows.foldl load t).graph =
      (rows.foldl load t).graph := by
    rw [graph_foldl_rows]
    rw [Graph.foldl_addCompaction_eq_tell fun c hc => Graph.knows_foldl_addCompaction hc]
    -- Of each file the last number told is the one that it has.
    refine Graph.foldl_tell_eq_self fun n m hm k hk => ?_
    have hnumber := Graph.map_keys_foldl_addCompaction (g := t.graph) hk
    rwa [hm, Option.map_some, Option.some.injEq] at hnumber
  rw [foldl_load_of_queued hqueued, hgraph]

/-! ## Loading -/

theorem fixes_onHost {ε ε' α : Type} {wrap : ε → ε'} {a : Host.Action ε α} :
    Moves (Fixes World.tracker) (onHost wrap a) := by
  intro w r w' h
  obtain ⟨_, _, -, -, rfl⟩ := World.runs_onHost.mp h
  rfl

theorem fixes_migrateLogs {rep : TextLog.Replay} {s : Loaded} {ps : List Path} :
    Moves (Fixes World.tracker) (migrateLogs rep s ps) := by
  induction ps generalizing rep s with
  | nil => exact moves_pure
  | cons p ps ih =>
    exact moves_bind fixes_onHost fun x => moves_bind moves_ofExcept fun cs =>
      moves_bind (fun w r w' h => (runs_migrateAll h).1.tracker) fun added =>
        moves_bind fixes_onHost fun _ => ih

/-- Loading goes through all its parts, the last of which takes in the rows, or stops before that. -/
theorem loadHistory_cases {r : Except Error Loaded} (h : Runs loadHistory w r w') :
    (∃ e, r = .error e) ∧ w'.tracker = w.tracker ∨ ∃ ps w₁ s w₂ read,
      w.tracker.attached = true ∧ Runs textLogs w (.ok ps) w₁ ∧
      Runs (migrateLogs {} {} ps) w₁ (.ok s) w₂ ∧ w₂.tracker = w.tracker ∧
      readRows w₂.host.history.rows.toList = .ok read ∧
      r = .ok { s with rows := read.length } ∧
      w' = { w₂.later with tracker := read.foldl load w₂.tracker } := by
  rw [loadHistory, runs_get_bind] at h
  split at h
  swap
  · obtain ⟨rfl, rfl⟩ := runs_throw_bind.mp h
    exact .inl ⟨⟨_, rfl⟩, rfl⟩
  rename_i hattached
  rcases runs_bind.mp h with ⟨ps, w₁, hps, h₁⟩ | ⟨e, hps, rfl⟩
  swap
  · exact .inl ⟨⟨e, rfl⟩, (runs_textLogs hps).1.tracker⟩
  have ht₁ := (runs_textLogs hps).1.tracker
  rcases runs_bind.mp h₁ with ⟨s, w₂, hmigrate, h₂⟩ | ⟨e, hmigrate, rfl⟩
  swap
  · exact .inl ⟨⟨e, rfl⟩, (fixes_migrateLogs _ _ _ hmigrate).trans ht₁⟩
  have ht₂ := (fixes_migrateLogs _ _ _ hmigrate).trans ht₁
  rcases runs_bind.mp h₂ with ⟨found, w₃, hscan, h₃⟩ | ⟨e, hscan, rfl⟩
  swap
  · exact .inl ⟨⟨e, rfl⟩, (runs_scanRows hscan).tracker.trans ht₂⟩
  obtain ⟨-, rfl, rfl⟩ := World.runs_scanRows_ok.mp hscan
  rcases runs_bind.mp h₃ with ⟨read, w₄, hread, h₄⟩ | ⟨e, hread, rfl⟩
  swap
  · rw [(runs_ofExcept.mp hread).2]
    exact .inl ⟨⟨e, rfl⟩, ht₂⟩
  obtain ⟨hok, rfl⟩ := runs_ofExcept.mp hread
  rw [World.runs_update_bind] at h₄
  obtain ⟨rfl, rfl⟩ := runs_pure.mp h₄
  exact .inr ⟨ps, w₁, s, w₂, read, hattached, hps, hmigrate, ht₂,
    except_mapError_eq_ok.mp hok.symm, rfl, rfl⟩

/-- A start changes nothing of the tracker, or takes in all rows. -/
theorem tracker_of_loadHistory {r : Except Error Loaded} (h : Runs loadHistory w r w') :
    w'.tracker = w.tracker ∨ ∃ read, readRows w'.host.history.rows.toList = .ok read ∧
      w'.tracker = read.foldl load w.tracker := by
  rcases loadHistory_cases h with ⟨-, ht⟩ | ⟨ps, w₁, s, w₂, read, -, -, -, ht, hread, -, rfl⟩
  · exact .inl ht
  · exact .inr ⟨read, hread, congrArg (read.foldl load) ht⟩

/-! ## Loading again -/

theorem keys_of_readRows {found : List (Bytes × Bytes)} (h : readRows found = .ok rows) :
    rows.map Prod.fst = found.map Prod.fst := by
  induction found generalizing rows with
  | nil =>
    cases h
    rfl
  | cons p found ih =>
    obtain ⟨key, value⟩ := p
    rw [readRows, List.mapM_cons] at h
    obtain ⟨row, hrow, h⟩ := except_bind_eq_ok.mp h
    obtain ⟨more, hmore, h⟩ := except_bind_eq_ok.mp h
    cases h
    rw [List.map_cons, List.map_cons, ih hmore]
    dsimp only at hrow
    cases hc : History.readRow value with
    | error e =>
      rw [hc] at hrow
      cases hrow
    | ok c =>
      rw [hc] at hrow
      cases hrow
      rfl

theorem ascending_of_readRows {table : Rows} (h : readRows table.toList = .ok rows) :
    rows.Pairwise fun a b => compare a.1 b.1 = .lt :=
  ascending_of_keys (keys_of_readRows h).symm

theorem nodup_of_readRows {table : Rows} (h : readRows table.toList = .ok rows) :
    (rows.map Prod.fst).Nodup := by
  refine List.pairwise_map.mpr ((ascending_of_readRows h).imp fun hab he => ?_)
  rw [he, Std.compare_self] at hab
  cases hab

/-- No log is left where loading went through. -/
theorem logPaths_of_migrateLogs {w₁ : World} (hfound : Runs textLogs w (.ok ps) w₁)
    (h : Runs (migrateLogs rep s ps) w₁ (.ok s') w') :
    (∃ names, w'.disk.namesIn w.tracker.logDir = .ok names) ∧
      w'.disk.logPaths w.tracker.logDir = [] := by
  obtain ⟨-, ⟨names, hnames⟩, rfl, rfl⟩ := runs_textLogs_ok.mp hfound
  obtain ⟨hshed, hgone⟩ := sheds_migrateLogs h
  have hasked : w.disk.Sheds { w.disk with outage := w.disk.outage.later } := .of_nodes rfl
  replace hshed : w.disk.Sheds w'.disk := Frame.trans hasked hshed
  obtain ⟨names', hnames', hsub⟩ := hshed.namesIn hnames
  refine ⟨⟨names', hnames'⟩, ?_⟩
  rw [Disk.logPaths, hnames']
  refine List.filter_eq_nil_iff.mpr fun p hp hfile => ?_
  obtain ⟨n, hn, rfl⟩ := List.mem_map.mp hp
  obtain ⟨hn, hlog⟩ := List.mem_filter.mp hn
  have hmem : w.tracker.logDir.join n ∈ w.disk.logPaths w.tracker.logDir := by
    rw [Disk.logPaths, hnames]
    refine List.mem_filter.mpr ⟨List.mem_map_of_mem ?_, hshed.isFile hfile⟩
    exact List.mem_filter.mpr ⟨hsub n hn, hlog⟩
  rw [hgone _ hmem] at hfile
  cases hfile

/-- Loading where there is no log takes in the rows and changes nothing else. -/
theorem runs_loadHistory_rows (hattached : w.tracker.attached = true)
    (hlist : w.disk.outage 0 .list = none) (hscan : w.host.outage 0 .scan = none)
    (hnames : ∃ names, w.disk.namesIn w.tracker.logDir = .ok names)
    (hlogs : w.disk.logPaths w.tracker.logDir = [])
    (hread : readRows w.host.history.rows.toList = .ok rows) :
    Runs loadHistory w (.ok { rows := rows.length })
      ⟨{ w.host with
        disk := { w.disk with outage := w.disk.outage.later }
        outage := w.host.outage.later }, rows.foldl load w.tracker⟩ := by
  rw [loadHistory, runs_get_bind, if_pos hattached, runs_bind_ok]
  refine ⟨[], _, runs_textLogs_ok.mpr ⟨hlist, hnames, hlogs.symm, rfl⟩, ?_⟩
  rw [migrateLogs, runs_pure_bind, runs_bind_ok]
  refine ⟨_, _, World.runs_scanRows_ok.mpr ⟨hscan, rfl, rfl⟩, ?_⟩
  rw [hread, runs_bind_ok]
  refine ⟨_, _, runs_ofExcept.mpr ⟨rfl, rfl⟩, ?_⟩
  rw [runs_bind_ok]
  exact ⟨(), _, World.runs_update.mpr ⟨rfl, rfl⟩, runs_pure.mpr ⟨rfl, rfl⟩⟩

theorem attached_foldl_load : (rows.foldl load t).attached = t.attached := by
  induction rows generalizing t with
  | nil => rfl
  | cons row rows ih =>
    rw [List.foldl_cons, ih, load_eq]
    split
    · rw [attached_enqueue]
    · rfl

/-- Loading that fails leaves the tracker as it was. Loading that goes through adds the rows to the
graph in the order of their keys, and the keys that are new to it to the queue; and done again, it
finds no log and changes nothing. -/
theorem loadHistory_again {r : Except Error Loaded} (h : Runs loadHistory w r w') :
    (∀ e, r = .error e → w'.tracker = w.tracker) ∧
    ∀ s, r = .ok s → ∃ read : List (Bytes × Compaction),
      readRows w'.host.history.rows.toList = .ok read ∧
      read.Pairwise (fun a b => compare a.1 b.1 = .lt) ∧
      w'.tracker.graph = (read.map Prod.snd).foldl Graph.addCompaction w.tracker.graph ∧
      w'.tracker.queue = (if w.tracker.options.stripValues then
        w.tracker.queue ++ (read.map Prod.fst).filter (· ∉ w.tracker.queue)
      else w.tracker.queue) ∧
      (w'.disk.outage 0 .list = none → w'.host.outage 0 .scan = none →
        ∃ v, Runs loadHistory w' (.ok { rows := s.rows }) v ∧ v.tracker = w'.tracker ∧
          v.host.history = w'.host.history ∧ v.disk.nodes = w'.disk.nodes ∧
          v.disk.contents = w'.disk.contents) := by
  rcases loadHistory_cases h with ⟨⟨e, rfl⟩, ht⟩ |
    ⟨ps, w₁, s, w₂, read, hattached, hfound, hmigrate, ht, hread, rfl, rfl⟩
  · exact ⟨fun _ _ => ht, nofun⟩
  have hkeys := nodup_of_readRows hread
  refine ⟨nofun, fun s' hs' => ⟨read, hread, ascending_of_readRows hread, ?_, ?_, ?_⟩⟩
  · rw [graph_foldl_rows, ht]
  · rw [queue_foldl_load hkeys, ht]
  · intro hlist hscan
    obtain ⟨hnames, hlogs⟩ := logPaths_of_migrateLogs hfound hmigrate
    have hdir : (read.foldl load w₂.tracker).logDir = w.tracker.logDir := by
      rw [logDir_foldl_load, ht]
    rw [← hdir] at hnames hlogs
    rw [← ht, ← @attached_foldl_load w₂.tracker read] at hattached
    have hagain := runs_loadHistory_rows hattached hlist hscan hnames hlogs hread
    cases hs'
    exact ⟨_, hagain, foldl_load_again hkeys, rfl, rfl, rfl⟩

end Tracker

end Lineage

/-! ## Loading twice -/

namespace Lineage.Sample

open Tracker (loadHistory)

theorem loadHistory_twice :
    (∃ v, Runs loadHistory (logged "C 1 a:b\n" "C 2 b:c\n")
        (.ok { logs := 2, logCompactions := 2, rows := 2 })
        (started (logged "C 1 a:b\n" "C 2 b:c\n")) ∧
      Runs loadHistory (started (logged "C 1 a:b\n" "C 2 b:c\n")) (.ok { rows := 2 }) v ∧
      v.tracker = (started (logged "C 1 a:b\n" "C 2 b:c\n")).tracker) ∧
    Runs loadHistory (logged "C 1 a:b\n" "C x b:c\n")
      (.error (.textLog secondLog (.history (.line "C x b:c" .sequence))))
      (started (logged "C 1 a:b\n" "C x b:c\n")) ∧
    (started (logged "C 1 a:b\n" "C x b:c\n")).tracker =
      (logged "C 1 a:b\n" "C x b:c\n").tracker := by
  obtain ⟨hok, hlist, hscan, herror⟩ :
      (loadHistory.run.run (logged "C 1 a:b\n" "C 2 b:c\n")).1 =
        .ok { logs := 2, logCompactions := 2, rows := 2 } ∧
      ((started (logged "C 1 a:b\n" "C 2 b:c\n")).disk.outage 0 .list).isNone = true ∧
      ((started (logged "C 1 a:b\n" "C 2 b:c\n")).host.outage 0 .scan).isNone = true ∧
      (loadHistory.run.run (logged "C 1 a:b\n" "C x b:c\n")).1 =
        .error (.textLog secondLog (.history (.line "C x b:c" .sequence))) := by
    decide +kernel
  obtain ⟨read, -, -, -, -, hagain⟩ :=
    (Tracker.loadHistory_again (runs_started hok)).2 _ rfl
  obtain ⟨v, hv, ht, -⟩ :=
    hagain (Option.isNone_iff_eq_none.mp hlist) (Option.isNone_iff_eq_none.mp hscan)
  exact ⟨⟨v, runs_started hok, hv, ht⟩, runs_started herror,
    (Tracker.loadHistory_again (runs_started herror)).1 _ rfl⟩

end Lineage.Sample
