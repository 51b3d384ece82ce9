import Lineage.Proofs.Graph.Trimming
import Lineage.Proofs.Recovery
import Lineage.Proofs.Upkeep
import Lineage.Tracker.Comparison

/-!
# A tracker that forgets, and one that starts from what it kept

`Keeping w cs w'` says that the events told to a tracker recorded the compactions `cs` in this
order, while its history expired now and then. Rows expire from the front, so what is left of the
history are the last compactions, and the graph is that of all of them without the first ones
(`Keeping.kept`). It may still have files and ages that a tracker does not find which starts with
the rows that are left; both compare snapshots in the same way all the same
(`compareSnapshots_restarted`).
-/

namespace Lineage.Tracker

variable {w w' v : World} {cs gone left : List Compaction}

/-! ## Rows in the order of their keys -/

/-- The compactions are in the order of their keys. -/
def Ascending (cs : List Compaction) : Prop := cs.Pairwise fun a b => compare a.key b.key = .lt

theorem Ascending.distinctKeys (h : Ascending cs) : DistinctKeys cs := by
  refine List.Pairwise.imp (fun hlt he => ?_) h
  rw [he, Std.compare_self] at hlt
  cases hlt

/-- Rows in the order of their keys are found and read in this order. -/
theorem Ascending.readRows (h : Ascending cs) (hfits : ∀ c ∈ cs, c.Fits) :
    (storedRows ∅ cs).toList = cs.map (fun c => (c.key, c.encode)) ∧
      readRows (storedRows ∅ cs).toList = .ok (cs.map fun c => (c.key, c)) := by
  obtain ⟨loaded, hread, htoList, hord, hmem⟩ := readRows_storedRows h.distinctKeys hfits
  obtain rfl := eq_of_ascending Compaction.key hord h hmem
  exact ⟨htoList, hread⟩

/-- Rows expire from the front. -/
theorem expiredRows_eq (now limit : UInt64) (hfits : ∀ c ∈ cs, c.Fits) :
    ∃ expired left, cs = expired ++ left ∧
      expiredRows now limit (cs.map fun c => (c.key, c.encode)) =
        .ok (expired.map fun c => (c.key, c)) := by
  induction cs with
  | nil => exact ⟨[], [], rfl, rfl⟩
  | cons c rest ih =>
    rw [List.forall_mem_cons] at hfits
    obtain ⟨expired, left, hrest, hread⟩ := ih hfits.2
    rw [List.map_cons, expiredRows, Compaction.readRow_encode hfits.1, hread]
    by_cases hc : younger now limit c.time
    · exact ⟨[], c :: rest, rfl, if_pos hc⟩
    · exact ⟨c :: expired, left, congrArg (c :: ·) hrest, if_neg hc⟩

/-- Without the rows of the first compactions, those of the others are left. -/
theorem erase_storedRows (h : DistinctKeys (gone ++ left)) :
    (gone.map Compaction.key).foldl Std.ExtTreeMap.erase (storedRows ∅ (gone ++ left)) =
      storedRows ∅ left := by
  obtain ⟨-, hleft, hne⟩ := List.pairwise_append.mp h
  refine Std.ExtTreeMap.ext_getElem? fun {k} => Option.ext fun row => ?_
  rw [getElem?_foldl_erase, getElem?_storedRows hleft]
  split
  · rename_i hk
    obtain ⟨a, ha, rfl⟩ := List.mem_map.mp hk
    simp only [Std.ExtTreeMap.getElem?_empty, reduceCtorEq, false_and, or_false, false_iff]
    rintro ⟨c, hc, hkey, -⟩
    exact hne a ha c hc hkey.symm
  · rename_i hk
    rw [getElem?_storedRows h]
    simp only [Std.ExtTreeMap.getElem?_empty, reduceCtorEq, false_and, or_false, List.mem_append]
    constructor
    · rintro ⟨c, hc | hc, hkey, hrow⟩
      · exact absurd (List.mem_map.mpr ⟨c, hc, hkey⟩) hk
      · exact ⟨c, hc, hkey, hrow⟩
    · rintro ⟨c, hc, hkey, hrow⟩
      exact ⟨c, .inr hc, hkey, hrow⟩

/-! ## Runs -/

/-- Jobs begin and are over, however the events end, and history expires without failure, all in
whatever order; the compactions are those that were recorded. -/
inductive Keeping : World → List Compaction → World → Prop where
  | nil {w : World} : Keeping w [] w
  | begin {w w₁ w' : World} {cs : List Compaction} {store : Store} {j : Job}
      {r : Except Error Unit} (before : Keeping w cs w₁) (ran : Runs (beginJob store j) w₁ r w') :
      Keeping w cs w'
  | complete {w w₁ w' : World} {cs : List Compaction} {store : Store} {now : UInt64} {j : Job}
      {r : Except Error Unit} (before : Keeping w cs w₁)
      (ran : Runs (completeJob store now j) w₁ r w') :
      Keeping w (cs ++ (recordedBy w₁ store now j r).toList) w'
  | expire {w w₁ w' : World} {cs : List Compaction} {now : UInt64} {e : Expired}
      (before : Keeping w cs w₁) (ran : Runs (expireHistory now) w₁ (.ok e) w') :
      Keeping w cs w'

/-- History need not expire. -/
theorem Recording.keeping (h : Recording w cs w') : Keeping w cs w' := by
  induction h with
  | nil => exact .nil
  | begin _ ran ih => exact .begin ih ran
  | complete _ ran ih => exact .complete ih ran

/-- The history has the last of some compactions, and the graph is without the others. -/
structure Kept (cs : List Compaction) (w : World) (gone left : List Compaction) : Prop where
  all : cs = gone ++ left
  rows : w.host.history.rows = storedRows ∅ left
  graph : w.tracker.graph.Trimmed gone left

theorem Kept.of_eq (h : Kept cs w gone left) (hgraph : w'.tracker.graph = w.tracker.graph)
    (hrows : w'.host.history.rows = w.host.history.rows) : Kept cs w' gone left :=
  ⟨h.all, hrows.trans h.rows, hgraph ▸ h.graph⟩

theorem Kept.begin {store : Store} {j : Job} {r : Except Error Unit}
    (h : Kept cs w gone left) (ran : Runs (beginJob store j) w r w') : Kept cs w' gone left := by
  obtain ⟨ht, hhistory, -⟩ := runs_beginJob ran
  refine h.of_eq ?_ (by rw [hhistory])
  rcases ht with ht | ⟨infos, ht⟩ <;> rw [ht]
  rfl

theorem Kept.recorded {c : Compaction} (h : Kept cs w gone left) (hl : Graph.Lineal (cs ++ [c]))
    (hr : Recorded c w w') : Kept (cs ++ [c]) w' gone (left ++ [c]) where
  all := by rw [h.all, List.append_assoc]
  rows := by
    rw [hr.rows, h.rows, storedRows_append]
    rfl
  graph := by
    rw [hr.tracker, graph_recorded]
    rw [h.all, List.append_assoc] at hl
    exact h.graph.addCompaction hl

theorem Kept.expire {now : UInt64} {e : Expired} (h : Kept cs w gone left)
    (hfits : ∀ c ∈ cs, c.Fits) (hasc : Ascending cs) (hl : Graph.Lineal cs)
    (ran : Runs (expireHistory now) w (.ok e) w') : ∃ gone left, Kept cs w' gone left := by
  rcases expireHistory_ok ran with hasked | ⟨rows, hrows, hgraph, herase⟩
  · exact ⟨gone, left, h.of_eq (by rw [hasked.tracker]) (by rw [hasked.history])⟩
  obtain ⟨rfl, hstored, htrim⟩ := h
  have hleft : Ascending left := (List.pairwise_append.mp hasc).2.1
  have hfit : ∀ c ∈ left, c.Fits := fun c hc => hfits c (List.mem_append_right _ hc)
  obtain ⟨expired, left, rfl, hread⟩ := expiredRows_eq now (ageLimit w.tracker.options) hfit
  rw [hstored, (hleft.readRows hfit).1, hread] at hrows
  obtain rfl := Except.ok.inj hrows
  simp only [List.map_map, Function.comp_def] at herase
  simp only [List.flatMap_map] at hgraph
  refine ⟨gone ++ expired, left, (List.append_assoc _ _ _).symm, ?_, ?_⟩
  · rw [herase, hstored]
    exact erase_storedRows hleft.distinctKeys
  · rw [hgraph]
    exact htrim.expire hl

/-- After every run the history and the graph are those of the last compactions. -/
theorem Keeping.kept (h : Keeping w cs w') (hgraph : w.tracker.graph = {})
    (hrows : w.host.history.rows = ∅) (hfits : ∀ c ∈ cs, c.Fits) (hasc : Ascending cs)
    (hl : Graph.Lineal cs) : ∃ gone left, Kept cs w' gone left := by
  induction h with
  | nil => exact ⟨[], [], rfl, hrows, hgraph ▸ Graph.trimmed_empty⟩
  | begin before ran ih =>
    obtain ⟨gone, left, hkept⟩ := ih hfits hasc hl
    exact ⟨gone, left, hkept.begin ran⟩
  | complete before ran ih =>
    rename_i w₁ w' cs store now j r
    have hsub := List.sublist_append_left cs (recordedBy w₁ store now j r).toList
    obtain ⟨gone, left, hkept⟩ := ih (fun c hc => hfits c (hsub.subset hc))
      (hasc.sublist hsub) (hl.sublist hsub)
    rcases runs_completeJob ran with ⟨c, hc, hr⟩ | ⟨hc, hg, hr⟩
    · rw [hc] at hl ⊢
      exact ⟨gone, left ++ [c], hkept.recorded hl hr⟩
    · rw [hc, Option.toList_none, List.append_nil]
      exact ⟨gone, left, hkept.of_eq hg hr⟩
  | expire before ran ih =>
    obtain ⟨gone, left, hkept⟩ := ih hfits hasc hl
    exact hkept.expire hfits hasc hl ran

/-! ## Comparisons -/

/-- Without prefixes, trackers with the same options whose graphs are alike compare in the same
way. -/
theorem compareSnapshots_eq {t t' : Tracker} {later earlier : Snapshot}
    (h : Graph.Alike t.graph t'.graph) (ho : t.options = t'.options)
    (hlevels : 1 < t.options.maxLevels) (hp : later.prefixes.isEmpty = true) :
    compareSnapshots t later earlier = compareSnapshots t' later earlier := by
  have hnames (later earlier : Names) (generation : UInt64) :
      compareNames t.graph later earlier generation t.options.maxLevels =
        compareNames t'.graph later earlier generation t.options.maxLevels := by
    rw [compareNames, compareNames, h.classify_eq hlevels]
  simp only [compareSnapshots, hp, if_true, ← ho, hnames]

/-- A tracker that starts with the rows that another one has left compares snapshots as that one
does, whatever expired there. -/
theorem compareSnapshots_restarted (h : Keeping w cs w') (hgraph : w.tracker.graph = {})
    (hrows : w.host.history.rows = ∅) (hfits : ∀ c ∈ cs, c.Fits) (hasc : Ascending cs)
    (hl : Graph.Lineal cs) (hv : Starting v)
    (hsame : v.host.history.rows = w'.host.history.rows) :
    ∃ v', Runs loadHistory v (.ok { rows := w'.host.history.rows.size }) v' ∧
      ∀ (o : Options) (later earlier : Snapshot), 1 < o.maxLevels →
        later.prefixes.isEmpty = true →
          compareSnapshots { v'.tracker with options := o } later earlier =
            compareSnapshots { w'.tracker with options := o } later earlier := by
  obtain ⟨gone, left, rfl, hstored, htrim⟩ := h.kept hgraph hrows hfits hasc hl
  obtain ⟨-, hleft, -⟩ := List.pairwise_append.mp hasc
  have hfit : ∀ c ∈ left, c.Fits := fun c hc => hfits c (List.mem_append_right _ hc)
  obtain ⟨-, hread⟩ := Ascending.readRows hleft hfit
  have hsize : left.length = w'.host.history.rows.size := by
    rw [hstored, size_storedRows (Ascending.distinctKeys hleft)
      fun c _ => Std.ExtTreeMap.not_mem_empty]
    exact (Nat.zero_add _).symm
  rw [← hstored, ← hsame] at hread
  refine ⟨_, hsize ▸ hv.loadHistory hread, fun o later earlier hlevels hp => ?_⟩
  refine compareSnapshots_eq ?_ rfl hlevels hp
  dsimp only
  rw [graph_foldl_load, hv.graph]
  exact (Graph.trimmed_foldl (hl.sublist (List.sublist_append_right gone left))).alike htrim

end Lineage.Tracker

/-! ## A file that has grown older than its row -/

namespace Lineage.Sample

open Tracker (Keeping Starting Ascending compareSnapshots expireHistory loadHistory)

/-- Two compactions more than a month apart. -/
def apart : List Compaction := [named 5 1 "a" "b", named 10 3000000000 "b" "c"]

/-- The first of them expired. -/
def forgotten : World := ((expireHistory 3000000000).run.run (recorded 5 1 10 3000000000)).2

/-- A tracker without history starts with the rows that are left. -/
def reopened : World := { fresh with host := { fresh.host with history := forgotten.host.history } }

/-- Where the first compaction expired, the file between the two is as old as that one made it, but
comes back as young as the second one. -/
theorem compareSnapshots_forgotten :
    Keeping fresh apart forgotten ∧ fresh.tracker.graph = {} ∧ fresh.host.history.rows = ∅ ∧
    (∀ c ∈ apart, c.Fits) ∧ Ascending apart ∧ Graph.Lineal apart ∧
    Starting reopened ∧
    forgotten.host.history.rows.size = 1 ∧
    (forgotten.tracker.graph.node? "b").map GraphNode.generation = some 5 ∧
    ∃ v', Runs loadHistory reopened (.ok { rows := 1 }) v' ∧
      ∀ (o : Options) (later earlier : Snapshot), 1 < o.maxLevels →
        later.prefixes.isEmpty = true →
          compareSnapshots { v'.tracker with options := o } later earlier =
            compareSnapshots { forgotten.tracker with options := o } later earlier := by
  obtain ⟨ha, hshort⟩ := List.forall_mem_cons.mp short_names
  obtain ⟨hb, hshort⟩ := List.forall_mem_cons.mp hshort
  obtain ⟨hc, -⟩ := List.forall_mem_cons.mp hshort
  have hfits : ∀ c ∈ apart, c.Fits :=
    List.forall_mem_cons.mpr ⟨fits_named ha hb, List.forall_mem_singleton.mpr (fits_named hb hc)⟩
  have hboth : Keeping fresh apart (recorded 5 1 10 3000000000) :=
    (recording_recorded (by decide +kernel)).keeping
  have hexpire : ((expireHistory 3000000000).run.run (recorded 5 1 10 3000000000)).1.toOption =
      some { compactions := 1, names := .ofList ["a"] } := by decide +kernel
  have hrun : Keeping fresh apart forgotten := .expire hboth (runs_of_toOption hexpire)
  have hasc : Ascending apart := by unfold Ascending; decide +kernel
  have hl : Graph.Lineal apart := ⟨by decide, by decide, by decide⟩
  have hstart : Starting reopened := ⟨rfl, rfl, ⟨[], rfl, nofun⟩, rfl, rfl⟩
  have hsize : forgotten.host.history.rows.size = 1 := by decide +kernel
  have hrows : reopened.host.history.rows = forgotten.host.history.rows := by rw [reopened]
  obtain ⟨v', hload, hcompare⟩ :=
    Tracker.compareSnapshots_restarted hrun rfl rfl hfits hasc hl hstart hrows
  rw [hsize] at hload
  exact ⟨hrun, rfl, rfl, hfits, hasc, hl, hstart, hsize, by decide +kernel, v', hload, hcompare⟩

end Lineage.Sample
