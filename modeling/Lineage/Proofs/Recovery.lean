import Lineage.Proofs.History.Compaction
import Lineage.Proofs.History.RowKey
import Lineage.Proofs.Recording
import Lineage.Tracker.Recovery

/-!
# A tracker that starts again

`Recording w cs w'` says that the events told to a tracker recorded the compactions `cs` in this
order; its graph and its history are then both made of these (`Recording.graph`, `Recording.rows`).
A tracker that starts with that history loads the compactions in the order of their keys. Unless two
of them have one key, none is lost, and the graph has the files and edges it had before; it is the
same graph if the compactions were recorded in the order of their keys (`loadHistory_rebuilds`).
-/

namespace Lineage.Tracker

open World (onDisk onHost update)

variable {w w₁ w' : World} {store : Store} {now : UInt64} {j : Job} {c : Compaction}
  {cs : List Compaction}

/-! ## What was recorded -/

/-- Whether a completed job is to be recorded. -/
def records (w : World) (j : Job) : Bool :=
  !w.tracker.ignores j && !j.outputs.isEmpty && !w.tracker.closed && w.tracker.attached &&
    !w.host.snapshots.isEmpty

/-- The compaction that was recorded of a completed job, given how the event ended. -/
def recordedBy (w : World) (store : Store) (now : UInt64) (j : Job) (r : Except Error Unit) :
    Option Compaction :=
  match r, w.tracker.compactionOf store now j with
  | .ok _, .ok c => if records w j then some c else none
  | _, _ => none

theorem records_iff : records w j = true ↔
    w.tracker.ignores j = false ∧ j.outputs ≠ [] ∧ Tracking w := by
  simp only [records, Bool.and_eq_true, Bool.not_eq_true', List.isEmpty_eq_false_iff]
  constructor
  · rintro ⟨⟨⟨⟨hi, ho⟩, hc⟩, ha⟩, hs⟩
    exact ⟨hi, ho, hc, ha, hs⟩
  · rintro ⟨hi, ho, ht⟩
    exact ⟨⟨⟨⟨hi, ho⟩, ht.opened⟩, ht.attached⟩, ht.snapshots⟩

/-- A completed job is recorded in graph and history, or in neither. -/
theorem runs_completeJob {r : Except Error Unit} (h : Runs (completeJob store now j) w r w') :
    (∃ c, recordedBy w store now j r = some c ∧ Recorded c w w') ∨
      recordedBy w store now j r = none ∧ w'.tracker.graph = w.tracker.graph ∧
        w'.host.history.rows = w.host.history.rows := by
  cases r with
  | error e =>
    obtain ⟨ht, hh⟩ := completeJob_error h
    exact .inr ⟨rfl, by rw [ht], by rw [hh]⟩
  | ok u =>
    have hnone (hn : ¬ records w j = true) : recordedBy w store now j (.ok u) = none := by
      unfold recordedBy
      cases w.tracker.compactionOf store now j with
      | error e => rfl
      | ok c => exact if_neg hn
    rcases completeJob_ok h with ⟨hi, rfl⟩ | ⟨hi, ho, rfl⟩ | ⟨hi, ho, c, hc, ⟨ht, ha⟩ | ⟨ht, hr⟩⟩
    · refine .inr ⟨hnone fun hr => ?_, rfl, rfl⟩
      rw [(records_iff.mp hr).1] at hi
      contradiction
    · exact .inr ⟨hnone fun hr => (records_iff.mp hr).2.1 ho, rfl, rfl⟩
    · refine .inr ⟨hnone fun hr => ht (records_iff.mp hr).2.2, by rw [ha.tracker], ?_⟩
      rw [ha.history]
    · refine .inl ⟨c, ?_, hr⟩
      unfold recordedBy
      rw [hc]
      exact if_pos (records_iff.mpr ⟨hi, ho, ht⟩)

/-- Jobs begin and are over, in whatever order and however the events end; the compactions are those
that were recorded. -/
inductive Recording : World → List Compaction → World → Prop where
  | nil {w : World} : Recording w [] w
  | begin {w w₁ w' : World} {cs : List Compaction} {store : Store} {j : Job}
      {r : Except Error Unit} (before : Recording w cs w₁) (ran : Runs (beginJob store j) w₁ r w') :
      Recording w cs w'
  | complete {w w₁ w' : World} {cs : List Compaction} {store : Store} {now : UInt64} {j : Job}
      {r : Except Error Unit} (before : Recording w cs w₁)
      (ran : Runs (completeJob store now j) w₁ r w') :
      Recording w (cs ++ (recordedBy w₁ store now j r).toList) w'

/-- The rows with those of some compactions. -/
def storedRows (rows : Rows) (cs : List Compaction) : Rows :=
  cs.foldl (fun rows c => rows.insert c.key c.encode) rows

theorem storedRows_append {rows : Rows} {cs' : List Compaction} :
    storedRows rows (cs ++ cs') = storedRows (storedRows rows cs) cs' :=
  List.foldl_append

theorem Recording.graph (h : Recording w cs w') :
    w'.tracker.graph = cs.foldl Graph.addCompaction w.tracker.graph := by
  induction h with
  | nil => rfl
  | begin _ ran ih =>
    rcases (runs_beginJob ran).1 with ht | ⟨infos, ht⟩ <;> rw [ht, ← ih]
    rfl
  | complete _ ran ih =>
    rw [List.foldl_append, ← ih]
    rcases runs_completeJob ran with ⟨c, hc, hr⟩ | ⟨hc, hg, -⟩
    · rw [hc, hr.tracker, graph_recorded]
      rfl
    · rw [hc, hg]
      rfl

theorem Recording.rows (h : Recording w cs w') :
    w'.host.history.rows = storedRows w.host.history.rows cs := by
  induction h with
  | nil => rfl
  | begin _ ran ih => rw [(runs_beginJob ran).2.1, ih]
  | complete _ ran ih =>
    rw [storedRows_append, ← ih]
    rcases runs_completeJob ran with ⟨c, hc, hr⟩ | ⟨hc, -, hrows⟩
    · rw [hc, hr.rows]
      rfl
    · rw [hc, hrows]
      rfl

/-! ## Rows -/

/-- No two compactions have one key. -/
def DistinctKeys (cs : List Compaction) : Prop := cs.Pairwise fun a b => a.key ≠ b.key

/-- Compactions that differ in sequence number or time differ in their keys. -/
theorem distinctKeys_of_times
    (h : cs.Pairwise fun a b => (a.sequence, a.time) ≠ (b.sequence, b.time)) : DistinctKeys cs :=
  h.imp fun hne hkey => hne (Prod.ext (RowKey.encode_inj hkey).1 (RowKey.encode_inj hkey).2)

theorem getElem?_storedRows {rows : Rows} {k v : Bytes} (h : DistinctKeys cs) :
    (storedRows rows cs)[k]? = some v ↔
      (∃ c ∈ cs, c.key = k ∧ c.encode = v) ∨ rows[k]? = some v ∧ ∀ c ∈ cs, c.key ≠ k := by
  induction cs generalizing rows with
  | nil => simp [storedRows]
  | cons c rest ih =>
    obtain ⟨hc, hrest⟩ := List.pairwise_cons.mp h
    change (storedRows (rows.insert c.key c.encode) rest)[k]? = some v ↔ _
    rw [ih hrest, Std.ExtTreeMap.getElem?_insert]
    split
    · rename_i hk
      obtain rfl := Std.compare_eq_iff_eq.mp hk
      simp only [Option.some.injEq, List.mem_cons, exists_eq_or_imp, forall_eq_or_imp, ne_eq,
        not_true_eq_false, false_and, and_false, or_false, true_and]
      constructor
      · rintro (hex | ⟨hv, -⟩)
        · exact .inr hex
        · exact .inl hv
      · rintro (hv | hex)
        · exact .inr ⟨hv, fun a ha => (hc a ha).symm⟩
        · exact .inl hex
    · rename_i hk
      rw [Std.compare_eq_iff_eq] at hk
      simp [hk]

theorem size_storedRows {rows : Rows} (h : DistinctKeys cs) (hnew : ∀ c ∈ cs, c.key ∉ rows) :
    (storedRows rows cs).size = rows.size + cs.length := by
  induction cs generalizing rows with
  | nil => rfl
  | cons c rest ih =>
    obtain ⟨hc, hrest⟩ := List.pairwise_cons.mp h
    rw [List.forall_mem_cons] at hnew
    change (storedRows (rows.insert c.key c.encode) rest).size = _
    rw [ih hrest, Std.ExtTreeMap.size_insert, if_neg (mt Std.ExtTreeMap.mem_iff_contains.mpr hnew.1),
      List.length_cons]
    · omega
    · intro a ha
      rw [Std.ExtTreeMap.mem_insert, Std.compare_eq_iff_eq]
      exact not_or.mpr ⟨hc a ha, hnew.2 a ha⟩

theorem mem_toList_storedRows {p : Bytes × Bytes} (h : DistinctKeys cs) :
    p ∈ (storedRows ∅ cs).toList ↔ ∃ c ∈ cs, (c.key, c.encode) = p := by
  obtain ⟨k, v⟩ := p
  rw [Std.ExtTreeMap.mem_toList_iff_getElem?_eq_some, getElem?_storedRows h]
  simp

theorem readRows_eq_ok {rows : List (Bytes × Bytes)} (hfits : ∀ c ∈ cs, c.Fits)
    (h : ∀ p ∈ rows, ∃ c ∈ cs, (c.key, c.encode) = p) : ∃ loaded : List Compaction,
      readRows rows = .ok (loaded.map fun c => (c.key, c)) ∧
      rows = loaded.map (fun c => (c.key, c.encode)) ∧ ∀ c ∈ loaded, c ∈ cs := by
  induction rows with
  | nil => exact ⟨[], rfl, rfl, nofun⟩
  | cons p rest ih =>
    rw [List.forall_mem_cons] at h
    obtain ⟨c, hc, rfl⟩ := h.1
    obtain ⟨loaded, hread, hrest, hmem⟩ := ih h.2
    refine ⟨c :: loaded, ?_, by rw [hrest, List.map_cons], List.forall_mem_cons.mpr ⟨hc, hmem⟩⟩
    rw [readRows] at hread ⊢
    rw [List.mapM_cons, hread]
    dsimp only
    rw [Compaction.readRow_encode (hfits c hc)]
    rfl

/-- What the rows of a table are made of stands in the order of their keys. -/
theorem ascending_of_keys {α : Type} {table : Rows} {l : List α} {key : α → Bytes}
    (h : table.toList.map Prod.fst = l.map key) :
    l.Pairwise fun a b => compare (key a) (key b) = .lt := by
  have hkeys : (table.toList.map Prod.fst).Pairwise fun k k' => compare k k' = .lt :=
    List.pairwise_map.mpr Std.ExtTreeMap.ordered_keys_toList
  rw [h] at hkeys
  exact List.pairwise_map.mp hkeys

/-- Rows are read back as the compactions that they were made of, in the order of their keys. -/
theorem readRows_storedRows (h : DistinctKeys cs) (hfits : ∀ c ∈ cs, c.Fits) :
    ∃ loaded : List Compaction,
      readRows (storedRows ∅ cs).toList = .ok (loaded.map fun c => (c.key, c)) ∧
      (storedRows ∅ cs).toList = loaded.map (fun c => (c.key, c.encode)) ∧
      loaded.Pairwise (fun a b => compare a.key b.key = .lt) ∧ ∀ c, c ∈ loaded ↔ c ∈ cs := by
  obtain ⟨loaded, hread, hrows, hmem⟩ :=
    readRows_eq_ok hfits fun p hp => (mem_toList_storedRows h).mp hp
  have hkeys : (storedRows ∅ cs).toList.map Prod.fst = loaded.map Compaction.key := by
    simp only [hrows, List.map_map, Function.comp_def]
  refine ⟨loaded, hread, hrows, ascending_of_keys hkeys, fun c => ⟨hmem c, fun hc => ?_⟩⟩
  have hrow : (c.key, c.encode) ∈ loaded.map fun c => (c.key, c.encode) :=
    hrows ▸ (mem_toList_storedRows h).mpr ⟨c, hc, rfl⟩
  obtain ⟨a, ha, hac⟩ := List.mem_map.mp hrow
  have hdecode := Compaction.decode_encode (hfits a (hmem a ha))
  rw [(Prod.mk.inj hac).2, Compaction.decode_encode (hfits c hc)] at hdecode
  exact Except.ok.inj hdecode ▸ ha

/-! ## Loading -/

/-- A tracker starts, with tables and nothing recorded; there are no text logs to replay, and
nothing is refused. -/
structure Starting (v : World) : Prop where
  attached : v.tracker.attached = true
  graph : v.tracker.graph = {}
  noLogs : ∃ names, v.host.disk.namesIn v.tracker.logDir = .ok names ∧
    ∀ n ∈ names, isLogName n = false
  quiet : v.host.outage = .quiet
  diskQuiet : v.host.disk.outage = .quiet

variable {v : World} {loaded : List Compaction}

theorem Starting.textLogs (h : Starting v) : Runs textLogs v (.ok []) v := by
  obtain ⟨names, hnames, hno⟩ := h.noLogs
  have hdisk : { v.host.disk with outage := v.host.disk.outage.later } = v.host.disk := by
    rw [h.diskQuiet, Outage.later_quiet, ← h.diskQuiet]
  have hlist : Runs (Disk.listDirectory v.tracker.logDir) v.host.disk (.ok names) v.host.disk := by
    rw [Disk.listDirectory, Disk.runs_query, hdisk, hnames, h.diskQuiet]
    exact ⟨rfl, rfl⟩
  have hfilter : names.filter isLogName = [] :=
    List.filter_eq_nil_iff.mpr fun n hn => by simp [hno n hn]
  rw [Tracker.textLogs, runs_get_bind, runs_bind_ok]
  refine ⟨names, v, World.runs_onDisk_ok.mpr ⟨_, hlist, rfl⟩, ?_⟩
  rw [runs_get_bind, hfilter]
  exact runs_pure.mpr ⟨rfl, rfl⟩

theorem Starting.scanRows (h : Starting v) :
    Runs (onHost Error.table Host.scanRows) v (.ok v.host.history.rows.toList) v := by
  have hhost : { v.host with outage := v.host.outage.later } = v.host := by
    rw [h.quiet, Outage.later_quiet, ← h.quiet]
  refine World.runs_onHost_ok.mpr ⟨v.host, ?_, rfl⟩
  rw [Host.scanRows, runs_bind_ok]
  refine ⟨(), v.host, Host.runs_consult_ok.mpr ⟨by rw [h.quiet]; rfl, hhost.symm⟩, ?_⟩
  rw [runs_get_bind]
  exact runs_pure.mpr ⟨rfl, rfl⟩

theorem load_eq (t : Tracker) (row : Bytes × Compaction) : t.load row =
    if t.options.stripValues then
      ({ t with graph := t.graph.addCompaction row.2 } : Tracker).enqueue row.1
    else { t with graph := t.graph.addCompaction row.2 } := rfl

@[simp] theorem graph_load (t : Tracker) (row : Bytes × Compaction) :
    (t.load row).graph = t.graph.addCompaction row.2 := by
  rw [load_eq]
  split
  · exact graph_enqueue _
  · rfl

/-- All compactions of the rows are added. -/
theorem graph_foldl_rows {rows : List (Bytes × Compaction)} {t : Tracker} :
    (rows.foldl load t).graph = (rows.map Prod.snd).foldl Graph.addCompaction t.graph := by
  induction rows generalizing t with
  | nil => rfl
  | cons row rows ih => rw [List.foldl_cons, ih, graph_load, List.map_cons, List.foldl_cons]

theorem graph_foldl_load (t : Tracker) :
    ((loaded.map fun c => (c.key, c)).foldl load t).graph =
      loaded.foldl Graph.addCompaction t.graph := by
  rw [graph_foldl_rows, List.map_map]
  exact congrArg (List.foldl _ _) (List.map_id loaded)

/-- A tracker that starts loads what its rows hold, in the order of their keys. -/
theorem Starting.loadHistory (h : Starting v)
    (hread : readRows v.host.history.rows.toList = .ok (loaded.map fun c => (c.key, c))) :
    Runs loadHistory v (.ok { rows := loaded.length })
      { v with tracker := (loaded.map fun c => (c.key, c)).foldl load v.tracker } := by
  rw [Tracker.loadHistory, runs_get_bind, h.attached, if_pos rfl, runs_bind_ok]
  refine ⟨[], v, h.textLogs, ?_⟩
  rw [migrateLogs, runs_pure_bind, runs_bind_ok]
  refine ⟨_, v, h.scanRows, ?_⟩
  rw [hread, runs_bind_ok]
  refine ⟨_, v, runs_ofExcept.mpr ⟨rfl, rfl⟩, ?_⟩
  rw [runs_bind_ok]
  refine ⟨(), _, World.runs_update.mpr ⟨rfl, rfl⟩, runs_pure.mpr ⟨?_, rfl⟩⟩
  rw [List.length_map]

theorem nodup_of_ascending {α β : Type} [Ord β] [Std.ReflOrd β] (key : α → β) {l : List α}
    (hl : l.Pairwise fun a b => compare (key a) (key b) = .lt) : l.Nodup := by
  refine hl.imp fun {a b} hab => ?_
  rintro rfl
  rw [Std.compare_self] at hab
  cases hab

/-- Two lists of the same things, both in the order of their keys, are one list. -/
theorem eq_of_ascending {α β : Type} [Ord β] [Std.TransOrd β] (key : α → β) {l l' : List α}
    (hl : l.Pairwise fun a b => compare (key a) (key b) = .lt)
    (hl' : l'.Pairwise fun a b => compare (key a) (key b) = .lt) (h : ∀ a, a ∈ l ↔ a ∈ l') :
    l = l' := by
  have hperm : l.Perm l' :=
    (List.perm_ext_iff_of_nodup (nodup_of_ascending key hl) (nodup_of_ascending key hl')).mpr h
  refine hperm.eq_of_pairwise (fun a b _ _ hab hba => ?_) hl hl'
  rw [Std.OrientedOrd.eq_swap, hba] at hab
  cases hab

/-- A graph of some compactions, taken in the order of their keys, beside the one in which they were
recorded. -/
structure Rebuilds (cs : List Compaction) (recorded loaded : Graph) : Prop where
  ordered : ∃ cs' : List Compaction, cs'.Perm cs ∧ cs'.Pairwise (fun a b => compare a.key b.key = .lt) ∧
    loaded = cs'.foldl Graph.addCompaction {}
  contains : ∀ n, loaded.contains n = recorded.contains n
  olderThan : ∀ n, loaded.olderThan n = recorded.olderThan n
  newerThan : ∀ n, loaded.newerThan n = recorded.newerThan n
  same : cs.Pairwise (fun a b => compare a.key b.key = .lt) → loaded = recorded

theorem rebuilds_of_perm {loaded : List Compaction} (hperm : loaded.Perm cs)
    (hord : loaded.Pairwise fun a b => compare a.key b.key = .lt) :
    Rebuilds cs (cs.foldl Graph.addCompaction {}) (loaded.foldl Graph.addCompaction {}) := by
  have hmem (c : Compaction) : c ∈ loaded ↔ c ∈ cs := hperm.mem_iff
  have hedges (n x : String) : x ∈ (loaded.foldl Graph.addCompaction {}).olderThan n ↔
      x ∈ (cs.foldl Graph.addCompaction {}).olderThan n := by
    simp only [Graph.mem_olderThan_foldl_addCompaction, hmem]
  refine ⟨⟨loaded, hperm, hord, rfl⟩, fun n => ?_, fun n => ?_, fun n => ?_, fun hasc => ?_⟩
  · rw [Bool.eq_iff_iff]
    simp only [Graph.contains_foldl_addCompaction, hmem]
  · exact Std.ExtTreeSet.ext_mem (hedges n)
  · refine Std.ExtTreeSet.ext_mem fun m => ?_
    rw [Graph.mirrored_empty.foldl_addCompaction m n, Graph.mirrored_empty.foldl_addCompaction m n]
    exact hedges m n
  · rw [eq_of_ascending Compaction.key hord hasc hmem]

/-- Every compaction that was recorded has a row of its own, and a tracker that starts with these
rows has the graph of these compactions in the order of their keys: one with the files and edges of
the graph in which they were recorded, and the same one if they were recorded in that order. -/
theorem loadHistory_rebuilds (h : Recording w cs w') (hgraph : w.tracker.graph = {})
    (hrows : w.host.history.rows = ∅) (hfits : ∀ c ∈ cs, c.Fits)
    (htimes : cs.Pairwise fun a b => (a.sequence, a.time) ≠ (b.sequence, b.time))
    (hv : Starting v) (hsame : v.host.history.rows = w'.host.history.rows) :
    w'.host.history.rows.size = cs.length ∧
    (∀ c ∈ cs, w'.host.history.rows[c.key]? = some c.encode) ∧
    ∃ v', Runs loadHistory v (.ok { rows := cs.length }) v' ∧
      Rebuilds cs w'.tracker.graph v'.tracker.graph := by
  have hkeys := distinctKeys_of_times htimes
  have hstored : w'.host.history.rows = storedRows ∅ cs := by rw [h.rows, hrows]
  have hsize : w'.host.history.rows.size = cs.length := by
    rw [hstored, size_storedRows hkeys fun c _ => Std.ExtTreeMap.not_mem_empty]
    exact Nat.zero_add _
  obtain ⟨loaded, hread, htoList, hord, hmem⟩ := readRows_storedRows hkeys hfits
  have hlength : loaded.length = cs.length := by
    rw [← hsize, hstored, ← Std.ExtTreeMap.length_toList, htoList, List.length_map]
  rw [← hstored, ← hsame] at hread
  have hnodup : cs.Nodup := htimes.imp fun {a b} hab he => hab (by rw [he])
  have hperm : loaded.Perm cs :=
    (List.perm_ext_iff_of_nodup (nodup_of_ascending Compaction.key hord) hnodup).mpr hmem
  refine ⟨hsize, fun c hc => ?_, _, hlength ▸ hv.loadHistory hread, ?_⟩
  · rw [hstored, getElem?_storedRows hkeys]
    exact .inl ⟨c, hc, rfl, rfl⟩
  · rw [h.graph, hgraph, graph_foldl_load, hv.graph]
    exact rebuilds_of_perm hperm hord

end Lineage.Tracker

/-! ## Restarts that rebuild the graph, and some that do not -/

namespace Lineage.Sample

open Tracker (Recording Starting completeJob loadHistory recordedBy)

/-- A tracker with tables and a directory for text logs, on a host that has a snapshot. -/
def fresh : World where
  host := {
    disk := { nodes := .ofList [(["tracker"], Node.directory),
      (["tracker", "compaction-log"], Node.directory)] }
    snapshots := .ofList [(([0] : Bytes), ([] : Bytes))] }
  tracker := tracker

/-- A tracker without history starts on the host as it is. -/
def restarted (w : World) : World := { w with tracker := fresh.tracker }

/-- One file was made into another. -/
def named (sequence time : UInt64) (input output : String) : Compaction :=
  ⟨sequence, time, [{ name := input }], [{ name := output }], none⟩

def ended (w : World) (sequence now : UInt64) (input output : String) : World :=
  ((completeJob (store sequence) now (job [input] [output])).run.run w).2

/-- Two compactions, the second of what the first one made. -/
def recorded (sequence now sequence' now' : UInt64) : World :=
  ended (ended fresh sequence now "a" "b") sequence' now' "b" "c"

/-- What is to be checked for a compaction of one file to be recorded. -/
abbrev Records (w : World) (sequence now : UInt64) (input output : String) : Prop :=
  ((completeJob (store sequence) now (job [input] [output])).run.run w).1.toOption = some () ∧
    recordedBy w (store sequence) now (job [input] [output]) (.ok ()) =
      some (named sequence now input output)

theorem recording_ended {w w' : World} {cs : List Compaction} {sequence now : UInt64}
    {input output : String} (h : Recording w cs w') (hr : Records w' sequence now input output) :
    Recording w (cs ++ [named sequence now input output]) (ended w' sequence now input output) := by
  have hnext := Recording.complete h (runs_of_toOption hr.1)
  rwa [hr.2] at hnext

theorem recording_recorded {sequence now sequence' now' : UInt64}
    (h : Records fresh sequence now "a" "b" ∧
      Records (ended fresh sequence now "a" "b") sequence' now' "b" "c") :
    Recording fresh [named sequence now "a" "b", named sequence' now' "b" "c"]
      (recorded sequence now sequence' now') :=
  recording_ended (recording_ended .nil h.1) h.2

theorem short_names : ∀ n ∈ ["a", "b", "c", "x", "y"], ShortText n := by
  unfold ShortText Wire.ShortList
  decide +kernel

theorem fits_named {sequence time : UInt64} {input output : String} (hi : ShortText input)
    (ho : ShortText output) : (named sequence time input output).Fits where
  inputs := ⟨(by decide : 1 < UInt64.size),
    List.forall_mem_singleton.mpr ⟨hi, nofun, nofun, nofun⟩⟩
  outputs := ⟨(by decide : 1 < UInt64.size),
    List.forall_mem_singleton.mpr ⟨ho, nofun, nofun, nofun⟩⟩
  reason := nofun

@[simp] theorem rows_restarted (w : World) :
    (restarted w).host.history.rows = w.host.history.rows := rfl

theorem starting_restarted {w : World}
    (hlogs : (w.host.disk.namesIn fresh.tracker.logDir).toOption = some [])
    (hquiet : w.host.outage = .quiet) (hdisk : w.host.disk.outage = .quiet) :
    Starting (restarted w) where
  attached := rfl
  graph := rfl
  noLogs := ⟨[], eq_ok_of_toOption hlogs, nofun⟩
  quiet := hquiet
  diskQuiet := hdisk

/-- Compactions in the order of their keys come back as they were. -/
theorem loadHistory_ascending :
    fresh.tracker.graph = {} ∧ fresh.host.history.rows = ∅ ∧
    Recording fresh [named 5 1 "a" "b", named 10 2 "b" "c"] (recorded 5 1 10 2) ∧
    Starting (restarted (recorded 5 1 10 2)) ∧
    (recorded 5 1 10 2).host.history.rows.size = 2 ∧
    ∃ v', Runs loadHistory (restarted (recorded 5 1 10 2)) (.ok { rows := 2 }) v' ∧
      v'.tracker.graph = (recorded 5 1 10 2).tracker.graph := by
  have ha : ShortText "a" := by unfold ShortText Wire.ShortList; decide +kernel
  have hb : ShortText "b" := by unfold ShortText Wire.ShortList; decide +kernel
  have hc : ShortText "c" := by unfold ShortText Wire.ShortList; decide +kernel
  have hfits : ∀ c ∈ [named 5 1 "a" "b", named 10 2 "b" "c"], c.Fits :=
    List.forall_mem_cons.mpr ⟨fits_named ha hb, List.forall_mem_singleton.mpr (fits_named hb hc)⟩
  have hrun : Recording fresh [named 5 1 "a" "b", named 10 2 "b" "c"] (recorded 5 1 10 2) :=
    recording_recorded (by decide +kernel)
  have hstart : Starting (restarted (recorded 5 1 10 2)) :=
    starting_restarted (by decide +kernel) rfl rfl
  obtain ⟨hsize, -, v', hran, hrebuilds⟩ := Tracker.loadHistory_rebuilds
    hrun rfl rfl hfits (by decide) hstart (rows_restarted _)
  exact ⟨rfl, rfl, hrun, hstart, hsize, v', hran, hrebuilds.same (by decide +kernel)⟩

/-- Two compactions of one sequence number and one time share a row, and a file that was first named
under the greater of two sequence numbers comes back under the lesser. -/
theorem not_loadHistory_rebuilds :
    (Recording fresh [named 5 1 "a" "b", named 5 1 "b" "c"] (recorded 5 1 5 1) ∧
      (recorded 5 1 5 1).host.history.rows.size = 1) ∧
    Recording fresh [named 10 1 "a" "b", named 5 2 "b" "c"] (recorded 10 1 5 2) ∧
      Starting (restarted (recorded 10 1 5 2)) ∧
      ∃ v', Runs loadHistory (restarted (recorded 10 1 5 2)) (.ok { rows := 2 }) v' ∧
        ((recorded 10 1 5 2).tracker.graph.node? "b").map GraphNode.generation = some 10 ∧
        (v'.tracker.graph.node? "b").map GraphNode.generation = some 5 := by
  have hboth : Recording fresh [named 5 1 "a" "b", named 5 1 "b" "c"] (recorded 5 1 5 1) :=
    recording_recorded (by decide +kernel)
  have hturned : Recording fresh [named 10 1 "a" "b", named 5 2 "b" "c"] (recorded 10 1 5 2) :=
    recording_recorded (by decide +kernel)
  have hstart : Starting (restarted (recorded 10 1 5 2)) :=
    starting_restarted (by decide +kernel) rfl rfl
  exact ⟨⟨hboth, by decide +kernel⟩, hturned, hstart, _, runs_of_toOption (by decide +kernel),
    by decide +kernel, by decide +kernel⟩

end Lineage.Sample
