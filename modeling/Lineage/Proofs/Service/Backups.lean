import Lineage.Proofs.Service.Basic

/-!
# Backups along a run

`Service.Sound` is what holds at every point of a run (`Reaches.sound`). A file that a graph edge or
a row names as compacted is gone from the store for good, and a file that is still live, or still the
older end of an edge, has the backup it got when a compaction of it began, unless that was dropped
since.
-/

namespace Lineage

open Tracker

variable {w w' : World} {s s' : Service} {sn : Snapshot} {names : Names} {n : String}

/-! ## Moves inside the backup directory -/

theorem Tracker.unslashed_of_liveNames {o : Options} {live : LiveFiles}
    (h : liveNames o live = .ok names) (hn : n ∈ names) : Unslashed n := by
  rw [liveNames] at h
  obtain ⟨files, -, h⟩ := except_bind_eq_ok.mp h
  obtain ⟨found, hfound, h⟩ := except_bind_eq_ok.mp h
  cases h
  rw [Std.ExtTreeSet.mem_ofList, List.contains_iff_mem] at hn
  obtain ⟨f, -, hf⟩ := exists_of_mem_mapM hfound hn
  split at hf
  · rename_i m hname
    cases hf
    exact SortedTable.unslashed_of_nameAt? hname
  · cases hf

/-- What a move of a tracker leaves alone: it stays what it is, and changes nothing on the disk but
files in its backup directory. -/
structure World.Inside (w w' : World) : Prop where
  ready : w.tracker.Ready → w'.tracker.Ready
  dir : w'.tracker.dir = w.tracker.dir
  options : w'.tracker.options = w.tracker.options
  snapshots : w'.host.snapshots = w.host.snapshots
  disk : Disk.Within w.tracker.InBackups w.disk w'.disk

namespace World.Inside

theorem refl : w.Inside w := ⟨id, rfl, rfl, rfl, Frame.refl _⟩

theorem backupDir (h : w.Inside w') : w'.tracker.backupDir = w.tracker.backupDir := by
  rw [Tracker.backupDir, Tracker.backupDir, h.dir, h.options]

theorem backupPath (h : w.Inside w') : w'.tracker.backupPath n = w.tracker.backupPath n := by
  rw [Tracker.backupPath, Tracker.backupPath, h.backupDir]

/-- A backup of which a move does not reach the place is there or not as before. -/
theorem backed {places : Place → Prop} (h : w.Inside w')
    (hw : Disk.Within places w.disk w'.disk) (hn : ¬ places (w.tracker.backupPath n).spot) :
    Backed w' n ↔ Backed w n := by
  rw [Backed, Backed, h.backupPath, hw.at?_eq hn]

end World.Inside

theorem Service.Holds.inside (h : Service.Holds w sn names) (hw : w.Inside w') :
    Service.Holds w' sn names where
  listed := hw.options ▸ h.listed
  apart := hw.backupDir ▸ h.apart
  linked n hn := by
    have hspot : ¬ w.tracker.InBackups (SortedTable.pathIn sn.dir n).spot := by
      rintro ⟨t, ht⟩
      rw [SortedTable.spot_pathIn (unslashed_of_liveNames h.listed hn)] at ht
      exact h.apart (List.append_singleton_inj.mp ht).1
    rw [Disk.present_eq, hw.disk.at?_eq hspot, ← Disk.present_eq]
    exact h.linked n hn

namespace Service

/-! ## The invariant -/

/-- The tracker takes events, and all is in place for its backups and for what snapshots keep. -/
structure Housed (s : Service) : Prop where
  ready : s.world.tracker.Ready
  snapshots : s.world.host.snapshots.isEmpty = false
  quiet : s.world.disk.outage = .quiet
  files : ∀ n, Unslashed n → s.world.disk.at? (s.world.tracker.backupPath n) ≠ some .directory
  holds : ∀ sn ∈ s.taken, ∃ names, Holds s.world sn names

theorem Housed.inside (h : s.Housed) (hw : s.world.Inside s'.world) (ht : s'.taken = s.taken) :
    s'.Housed where
  ready := hw.ready h.ready
  snapshots := hw.snapshots ▸ h.snapshots
  quiet := hw.disk.quiet h.quiet
  files n hn := by
    rw [hw.backupPath, Ne, hw.disk.at?_eq_directory]
    exact h.files n hn
  holds sn hsn := by
    obtain ⟨names, hholds⟩ := h.holds sn (ht ▸ hsn)
    exact ⟨names, hholds.inside hw⟩

/-- A file that the store had and will not have again. -/
structure Past (s : Service) (n : String) : Prop where
  used : n ∈ s.used
  gone : n ∉ s.live
  unslashed : Unslashed n

/-- A file that is live, or the older end of an edge. -/
def Wanted (s : Service) (n : String) : Prop := n ∈ s.live ∨ ∃ m, n ∈ s.graph.olderThan m

/-- What holds at every point of a run. -/
structure Sound (s : Service) : Prop where
  housed : s.Housed
  live_used : ∀ n ∈ s.live, n ∈ s.used
  begun : ∀ n ∈ s.begun, n ∈ s.used ∧ Unslashed n
  edges : ∀ n x, x ∈ s.graph.olderThan n → x ∈ s.begun ∧ s.Past x ∧ Unslashed n
  rows : RowsOf (∀ n ∈ ·, s.Past n) s.world.host.history.rows
  backed : ∀ n ∈ s.begun, s.Wanted n → (Backed s.world n ↔ n ∉ s.dropped)

theorem Starts.sound (h : Starts s) : s.Sound where
  housed := by
    refine ⟨⟨h.opened, h.attached, fun n i hi => ?_⟩, h.snapshots, h.quiet, h.files, ?_⟩
    · rw [h.inFlight, Std.ExtTreeMap.getElem?_empty] at hi
      cases hi
    · rw [h.taken]
      exact fun sn hsn => absurd hsn List.not_mem_nil
  live_used := h.live_used
  begun n hn := by
    rw [h.begun] at hn
    exact absurd hn Std.ExtTreeSet.not_mem_empty
  edges n x hx := by
    rw [h.graph, Graph.olderThan] at hx
    exact absurd hx Std.ExtTreeSet.not_mem_empty
  rows key value hv := by
    rw [h.rows, Std.ExtTreeMap.getElem?_empty] at hv
    cases hv
  backed n hn := by
    rw [h.begun] at hn
    exact absurd hn Std.ExtTreeSet.not_mem_empty

/-! ## Steps of the store -/

theorem Past.flush {name : String} (h : s.Past n) (hnew : name ∉ s.used) :
    (s.flush name).Past n := by
  refine ⟨mem_used_flush.mpr (.inr h.used), fun hlive => ?_, h.unslashed⟩
  rcases mem_live_flush.mp hlive with rfl | hlive
  · exact hnew h.used
  · exact h.gone hlive

theorem Sound.flush {name : String} (h : s.Sound) (hnew : name ∉ s.used) :
    (s.flush name).Sound where
  housed := h.housed.inside .refl rfl
  live_used n hn := mem_used_flush.mpr ((mem_live_flush.mp hn).imp_right (h.live_used n))
  begun n hn := ⟨mem_used_flush.mpr (.inr (h.begun n hn).1), (h.begun n hn).2⟩
  edges n x hx := by
    obtain ⟨hbegun, hpast, hn⟩ := h.edges n x hx
    exact ⟨hbegun, hpast.flush hnew, hn⟩
  rows := h.rows.imp fun names hnames n hn => (hnames n hn).flush hnew
  backed n hn hwanted := by
    refine h.backed n hn (hwanted.imp_left fun hlive => ?_)
    refine (mem_live_flush.mp hlive).resolve_left fun he => hnew ?_
    rw [he]
    exact (h.begun n hn).1

/-- A move of the tracker, or something outside of it, that adds neither edges nor rows. -/
theorem Sound.move (h : s.Sound) (hh : s'.Housed) (hlive : s'.live = s.live)
    (hused : s'.used = s.used) (hbegun : s'.begun = s.begun)
    (hedges : ∀ n x, x ∈ s'.graph.olderThan n → x ∈ s.graph.olderThan n)
    (hrows : RowsOf (∀ n ∈ ·, s.Past n) s'.world.host.history.rows)
    (hbacked : ∀ n ∈ s.begun, Unslashed n → s.Wanted n → s'.Wanted n →
      (Backed s.world n ↔ n ∉ s.dropped) → (Backed s'.world n ↔ n ∉ s'.dropped)) : s'.Sound := by
  have hpast (n : String) (hn : s.Past n) : s'.Past n :=
    ⟨hused ▸ hn.used, hlive ▸ hn.gone, hn.unslashed⟩
  refine ⟨hh, ?_, ?_, fun n x hx => ?_, hrows.imp fun names hnames n hn => hpast n (hnames n hn),
    fun n hn hwanted => ?_⟩
  · rw [hlive, hused]
    exact h.live_used
  · rw [hbegun, hused]
    exact h.begun
  · obtain ⟨hx, hp, hn⟩ := h.edges n x (hedges n x hx)
    exact ⟨hbegun ▸ hx, hpast x hp, hn⟩
  · rw [hbegun] at hn
    have hbefore : s.Wanted n := by
      rcases hwanted with hn | ⟨m, hm⟩
      · exact .inl (hlive ▸ hn)
      · exact .inr ⟨m, hedges m n hm⟩
    exact hbacked n hn (h.begun n hn).2 hbefore hwanted (h.backed n hn hbefore)

theorem Sound.take {key value : Bytes} (h : s.Sound) (hsn : Holds s.world sn s.live) :
    (s.take sn key value).Sound := by
  refine h.move ⟨h.housed.ready, ?_, h.housed.quiet, h.housed.files, fun sn' hsn' => ?_⟩ rfl rfl rfl
    (fun _ _ => id) h.rows fun _ _ _ _ _ => id
  · exact Std.ExtTreeMap.isEmpty_eq_false_iff.mpr Std.ExtTreeMap.insert_ne_empty
  · rcases List.mem_cons.mp hsn' with rfl | hsn'
    · exact ⟨s.live, hsn.listed, hsn.apart, hsn.linked⟩
    · obtain ⟨names, hholds⟩ := h.housed.holds sn' hsn'
      exact ⟨names, hholds.listed, hholds.apart, hholds.linked⟩

theorem Sound.onDisk {d : Disk} (h : s.Sound) (hd : s.Undisturbed d) : (s.onDisk d).Sound := by
  refine h.move ⟨h.housed.ready, h.housed.snapshots, hd.quiet, fun n hn => ?_, fun sn hsn => ?_⟩
    rfl rfl rfl (fun _ _ => id) h.rows fun n _ hn _ _ hb => ?_
  · rw [World.disk, Service.onDisk, hd.backups n hn]
    exact h.housed.files n hn
  · obtain ⟨names, hholds⟩ := h.housed.holds sn hsn
    exact ⟨names, hholds.listed, hholds.apart, fun n hn => hd.linked sn hsn n (hholds.linked n hn)⟩
  · rwa [Backed, World.disk, Service.onDisk, hd.backups n hn]

/-! ## Steps of the tracker -/

section
variable {store : Store} {now : UInt64} {j : Job} {inputs outputs : List String}

theorem Replaces.leaves_trace (h : s.Replaces j inputs outputs) (hs : s.Sound) :
    s.world.tracker.ignores j = false := by
  refine ignores_eq_false h.tracked h.named_inputs h.named_outputs h.nonempty fun n hn ho => ?_
  exact h.new n ho (hs.live_used n (h.held n hn))

theorem unslashed_of_named {ps : List Path} {names : List String}
    (h : ps.map SortedTable.nameAt? = names.map some) : ∀ n ∈ names, Unslashed n := by
  intro n hn
  have hmem : some n ∈ ps.map SortedTable.nameAt? := h ▸ List.mem_map_of_mem hn
  obtain ⟨p, -, hp⟩ := List.mem_map.mp hmem
  exact SortedTable.unslashed_of_nameAt? hp

theorem Sound.tracking (h : s.Sound) : Tracking s.world :=
  h.housed.ready.tracking h.housed.snapshots

theorem Sound.begin (h : s.Sound) (hr : s.Replaces j inputs outputs)
    (ran : Runs (beginJob store j) s.world (.ok ()) w) : (s.begin w inputs).Sound := by
  have hslash := unslashed_of_named hr.named_inputs
  obtain ⟨⟨infos, ht⟩, hhistory, hsnap, hw, hbacked⟩ :=
    beginJob_ok ran (hr.leaves_trace h) h.tracking h.housed.quiet hr.named_inputs
  obtain ⟨hready, hgraph, hoptions⟩ := h.housed.ready.begin ran
  have hinside : s.world.Inside w := by
    refine ⟨fun _ => hready, ?_, hoptions, hsnap, hw.mono fun q => inBackups_of_backupSpots hslash⟩
    rw [ht]
    rfl
  replace hgraph : (s.begin w inputs).graph = s.graph := hgraph
  refine ⟨h.housed.inside hinside rfl, h.live_used, fun n hn => ?_, fun n x hx => ?_, ?_,
    fun n hn hwanted => ?_⟩
  · rcases mem_begun_begin.mp hn with hn | hn
    · exact h.begun n hn
    · exact ⟨h.live_used n (hr.held n hn), hslash n hn⟩
  · rw [hgraph] at hx
    obtain ⟨hbegun, hpast, hn⟩ := h.edges n x hx
    exact ⟨mem_begun_begin.mpr (.inl hbegun), ⟨hpast.used, hpast.gone, hpast.unslashed⟩, hn⟩
  · rw [show (s.begin w inputs).world.host.history = s.world.host.history from hhistory]
    refine h.rows.imp fun names hnames n hn => ?_
    exact ⟨(hnames n hn).used, (hnames n hn).gone, (hnames n hn).unslashed⟩
  · rw [mem_dropped_begin]
    by_cases hmem : n ∈ inputs
    · exact iff_of_true (hbacked n hmem) fun hdropped => hdropped.2 hmem
    · have hbefore : n ∈ s.begun := (mem_begun_begin.mp hn).resolve_right hmem
      have hplace := not_backupSpots (t := s.world.tracker) (h.begun n hbefore).2 hslash hmem
      rw [Wanted, hgraph] at hwanted
      rw [and_iff_left hmem]
      exact (hinside.backed hw hplace).trans (h.backed n hbefore hwanted)

/-- A job that is over adds no edges but from its outputs to its inputs, and no row but its own. -/
theorem Sound.completed (h : s.Sound) (hr : s.Replaces j inputs outputs)
    (hfits : ∀ c, s.world.tracker.compactionOf store now j = .ok c → c.Fits)
    (ran : Runs (completeJob store now j) s.world (.ok ()) w) :
    s.world.Inside w ∧ Disk.Within (fun _ => False) s.world.disk w.disk ∧
      (∀ n x, x ∈ w.tracker.graph.olderThan n →
        x ∈ s.graph.olderThan n ∨ n ∈ outputs ∧ x ∈ inputs) ∧
      ∀ P, RowsOf P s.world.host.history.rows → P inputs → RowsOf P w.host.history.rows := by
  rcases completeJob_ok ran with ⟨hi, -⟩ | ⟨-, -, rfl⟩ | ⟨-, -, c, hc, ⟨hnot, -⟩ | ⟨-, hrec⟩⟩
  · rw [hr.leaves_trace h] at hi
    cases hi
  · refine ⟨⟨fun hready => ?_, rfl, rfl, rfl, Frame.refl _⟩, Frame.refl _, fun n x => .inl,
      fun P hP _ => hP⟩
    exact ⟨hready.opened, hready.attached, hready.flight.forget _⟩
  · exact absurd h.tracking hnot
  · have hin := inputNames_of_compactionOf hc h.housed.ready.flight hr.named_inputs
    have hout := outputNames_of_compactionOf hc hr.named_outputs
    refine ⟨⟨fun hready => ?_, ?_, ?_, hrec.snapshots, hrec.disk.mono fun _ => False.elim⟩,
      hrec.disk, fun n x hx => ?_, fun P hP hnames => ?_⟩
    · rw [hrec.tracker]
      refine ⟨?_, ?_, hready.flight.recorded _⟩
      · rw [closed_recorded, hready.opened]
      · rw [attached_recorded, hready.attached]
    · rw [hrec.tracker, dir_recorded]
    · rw [hrec.tracker, options_recorded]
    · rw [hrec.tracker, graph_recorded, Graph.mem_olderThan_addCompaction, hin, hout] at hx
      exact hx.imp_right fun hx => ⟨hx.1, hx.2.1⟩
    · rw [hrec.rows]
      exact hP.insert (hfits c hc) (hin ▸ hnames)

theorem Past.complete (h : s.Past n) (hnew : ∀ n ∈ outputs, n ∉ s.used) :
    (s.complete w inputs outputs).Past n := by
  refine ⟨mem_used_complete.mpr (.inl h.used), fun hlive => ?_, h.unslashed⟩
  rcases mem_live_complete.mp hlive with ⟨hlive, -⟩ | hout
  · exact h.gone hlive
  · exact hnew n hout h.used

theorem Sound.complete (h : s.Sound) (hr : s.Replaces j inputs outputs)
    (hbegun : ∀ n ∈ inputs, n ∈ s.begun)
    (hfits : ∀ c, s.world.tracker.compactionOf store now j = .ok c → c.Fits)
    (ran : Runs (completeJob store now j) s.world (.ok ()) w) :
    (s.complete w inputs outputs).Sound := by
  obtain ⟨hinside, hdisk, hedges, hrows⟩ := h.completed hr hfits ran
  have hinputs : ∀ n ∈ inputs, (s.complete w inputs outputs).Past n := by
    intro n hn
    have hused := h.live_used n (hr.held n hn)
    refine ⟨mem_used_complete.mpr (.inl hused), fun hlive => ?_, (h.begun n (hbegun n hn)).2⟩
    rcases mem_live_complete.mp hlive with ⟨-, hout⟩ | hout
    · exact hout hn
    · exact hr.new n hout hused
  refine ⟨h.housed.inside hinside rfl, fun n hn => ?_, fun n hn => ?_, fun n x hx => ?_,
    hrows _ (h.rows.imp fun names hnames n hn => (hnames n hn).complete hr.new) hinputs,
    fun n hn hwanted => ?_⟩
  · rw [mem_used_complete]
    exact (mem_live_complete.mp hn).imp_left fun hn => h.live_used n hn.1
  · exact ⟨mem_used_complete.mpr (.inl (h.begun n hn).1), (h.begun n hn).2⟩
  · rcases hedges n x hx with hx | ⟨hout, hin⟩
    · obtain ⟨hx, hpast, hn⟩ := h.edges n x hx
      exact ⟨hx, hpast.complete hr.new, hn⟩
    · exact ⟨hbegun x hin, hinputs x hin, unslashed_of_named hr.named_outputs n hout⟩
  · -- A file that is wanted now was wanted before, or is one of the inputs, which were live.
    have hbefore : s.Wanted n := by
      rcases hwanted with hlive | ⟨m, hm⟩
      · rcases mem_live_complete.mp hlive with ⟨hlive, -⟩ | hout
        · exact .inl hlive
        · exact absurd (h.begun n hn).1 (hr.new n hout)
      · rcases hedges m n hm with hm | ⟨-, hin⟩
        · exact .inr ⟨m, hm⟩
        · exact .inl (hr.held n hin)
    exact (hinside.backed hdisk id).trans (h.backed n hn hbefore)

end

/-! ## Upkeep -/

theorem Sound.past_of_consumed (h : s.Sound) (hn : Consumed s.world n) : s.Past n := by
  rcases hn with ⟨m, hm⟩ | ⟨key, value, c, hv, hc, hmem⟩
  · exact (h.edges m n hm).2.1
  · exact (h.rows.readRow hv hc).2 n hmem

theorem Sound.expire {now : UInt64} {e : Expired} (h : s.Sound)
    (ran : Runs (expireHistory now) s.world (.ok e) w) : Sound { s with world := w } := by
  obtain ⟨expired, hexp, hconsumed⟩ := runs_expireHistory ran
  have hpast (n : String) (hn : n ∈ expired) : s.Past n := h.past_of_consumed (hconsumed n hn)
  have hslash : ∀ n ∈ expired.toList, Unslashed n :=
    fun n hn => (hpast n (Std.ExtTreeSet.mem_toList.mp hn)).unslashed
  have hinside : s.world.Inside w := by
    refine ⟨fun hready => ?_, ?_, ?_, hexp.snapshots,
      hexp.disk.mono fun q => inBackups_of_backupSpots hslash⟩
    · rw [hexp.tracker]
      exact ⟨hready.opened, hready.attached, hready.flight⟩
    · rw [hexp.tracker]
    · rw [hexp.tracker]
  refine h.move (h.housed.inside hinside rfl) rfl rfl rfl (fun n x hx => ?_) (fun k v hv => ?_)
    fun n _ hn _ hwanted hb => ?_
  · exact ((hexp.edges n x).mp hx).1
  · exact h.rows k v (hexp.rows k v hv)
  · have hkept : n ∉ expired := by
      intro hmem
      rcases hwanted with hlive | ⟨m, hm⟩
      · exact (hpast n hmem).gone hlive
      · exact ((hexp.edges m n).mp hm).2.2 hmem
    have hplace := not_backupSpots (t := s.world.tracker) hn hslash
      (mt Std.ExtTreeSet.mem_toList.mp hkept)
    exact (hinside.backed hexp.disk hplace).trans hb

theorem Sound.drop {k : Nat} (h : s.Sound) (ran : Runs dropOutputBackups s.world (.ok k) w) :
    (s.drop w).Sound := by
  rcases runs_dropOutputBackups ran with ⟨hactive, rfl⟩ | ⟨hactive, ran⟩
  · refine h.move (h.housed.inside .refl rfl) rfl rfl rfl (fun _ _ => id) h.rows
      fun n _ _ _ _ hb => ?_
    rw [dropped_drop hactive]
    exact hb
  · have hslash : ∀ n ∈ s.graph.outputNames, Unslashed n := by
      intro n hn
      obtain ⟨x, hx⟩ := Graph.mem_outputNames.mp hn
      exact (h.edges n x hx).2.2
    have hremoved := not_backed_of_removeBackups ran h.housed.quiet hslash fun n hn =>
      h.housed.files n (hslash n hn)
    obtain ⟨hrest, hw⟩ := removeBackups_within ran
    have htracker : w.tracker = s.world.tracker := congrArg Prod.fst hrest
    have hhistory : w.host.history = s.world.host.history := congrArg (fun r => r.2.1) hrest
    have hinside : s.world.Inside w := by
      refine ⟨fun hready => htracker ▸ hready, ?_, ?_, congrArg (fun r => r.2.2) hrest,
        hw.mono fun q => inBackups_of_backupSpots hslash⟩
      · rw [htracker]
      · rw [htracker]
    refine h.move (h.housed.inside hinside rfl) rfl rfl rfl (fun n x hx => ?_) ?_
      fun n _ hn _ _ hb => ?_
    · have hgraph : (s.drop w).graph = s.graph := congrArg Tracker.graph htracker
      rwa [hgraph] at hx
    · rw [show (s.drop w).world.host.history = s.world.host.history from hhistory]
      exact h.rows
    · rw [mem_dropped_drop hactive]
      by_cases hmem : n ∈ s.graph.outputNames
      · exact iff_of_false (hremoved n hmem) fun hnot => hnot (.inr hmem)
      · have hplace := not_backupSpots (t := s.world.tracker) hn hslash hmem
        rw [or_iff_left hmem]
        exact (hinside.backed hw hplace).trans hb

theorem Sound.strip {run : StripRun} (h : s.Sound)
    (ran : Runs stripBackups s.world (.ok run) w) : Sound { s with world := w } := by
  have hstripped := runs_stripBackups ran h.housed.quiet <|
    h.rows.imp fun names hnames n hn => (hnames n hn).unslashed
  have hgraph := congrArg Tracker.graph hstripped.tracker
  have hdir := congrArg Tracker.dir hstripped.tracker
  have hoptions := congrArg Tracker.options hstripped.tracker
  have hclosed := congrArg Tracker.closed hstripped.tracker
  have hattached := congrArg Tracker.attached hstripped.tracker
  have hflight := congrArg Tracker.inFlight hstripped.tracker
  have hinside : s.world.Inside w := by
    refine ⟨fun hready => ⟨hclosed.trans hready.opened, hattached.trans hready.attached, ?_⟩,
      hdir, hoptions, hstripped.snapshots, hstripped.disk⟩
    rw [NamesFlight, show w.tracker.inFlight = s.world.tracker.inFlight from hflight]
    exact hready.flight
  refine h.move (h.housed.inside hinside rfl) rfl rfl rfl (fun n x hx => ?_)
    (hstripped.rows _ h.rows) fun n _ hn _ _ hb => ?_
  · rw [graph, show w.tracker.graph = s.world.tracker.graph from hgraph] at hx
    exact hx
  · exact (hstripped.backed n hn).trans hb

/-! ## Runs -/

theorem Sound.step (h : s.Sound) (hs : Step s s') : s'.Sound := by
  cases hs with
  | flush new => exact h.flush new
  | take holds => exact h.take holds
  | outside apart => exact h.onDisk apart
  | begin replaces ran => exact h.begin replaces ran
  | complete replaces begun fits ran => exact h.complete replaces begun fits ran
  | expire ran => exact h.expire ran
  | drop ran => exact h.drop ran
  | strip ran => exact h.strip ran

theorem Sound.reaches (h : s.Sound) (hr : Reaches s s') : s'.Sound := by
  induction hr with
  | refl => exact h
  | tail _ last ih => exact ih.step last

end Service

end Lineage
