import Lineage.Proofs.Migration.Logs
import Lineage.Proofs.TextLog.Grammar

/-!
# Reading back a text log that was written

A log has a line for each compaction, and one for its reason if it has one. There is none to take a
reason back, so a compaction without a reason comes back with that of the last one before it
(`withReasons`), and all else comes back as it was (`runFile_extend`).
-/

namespace Lineage.TextLog

variable {c : Compaction} {cs : List Compaction} {is : List FileInfo} {r r' : Replay} {s : String}
  {reason : Option String} {rest : List Bytes}

/-! ## What a log can tell of -/

/-- A file of which only the name is known, and the name can stand in a line. -/
structure Bare (i : FileInfo) : Prop where
  alone : i = { name := i.name }
  listable : Listable i.name
  noNewline : '\n' ∉ i.name.toList
  noReturn : '\r' ∉ i.name.toList

/-- A compaction that a log without snapshots can tell of. -/
structure Tellable (c : Compaction) : Prop where
  time : c.time = 0
  inputs : c.inputs ≠ []
  outputs : c.outputs ≠ []
  inputBare : ∀ i ∈ c.inputs, Bare i
  outputBare : ∀ i ∈ c.outputs, Bare i
  reason : ∀ s, c.reason = some s → OneLine s

theorem map_name_of_bare (h : ∀ i ∈ is, Bare i) :
    (is.map FileInfo.name).map (fun n => { name := n : FileInfo }) = is := by
  rw [List.map_map]
  exact (List.map_congr_left fun i hi => (h i hi).alone.symm).trans (List.map_id is)

theorem not_mem_compactionLine {c : Char} {sequence : UInt64} {inputs outputs : List String}
    (hdigit : c.isDigit = false) (hc : c ∉ ['C', ' ', ':', ',']) (hin : ∀ n ∈ inputs, c ∉ n.toList)
    (hout : ∀ n ∈ outputs, c ∉ n.toList) :
    c ∉ (compactionLine sequence inputs outputs).toList := by
  have hnumber : c ∉ Nat.toDigits 10 sequence.toNat := fun h => by
    rw [Decimal.isDigit_of_mem_toDigits h] at hdigit
    cases hdigit
  simp only [List.mem_cons, List.not_mem_nil, or_false, not_or] at hc
  have hleft := not_mem_listed hc.2.2.2 hin
  have hright := not_mem_listed hc.2.2.2 hout
  simp [toList_compactionLine, hnumber, hleft, hright, hc]

/-! ## Lines -/

theorem oneLine_reasonLine (h : OneLine s) : OneLine (reasonLine s) := by
  have hline : (reasonLine s).toList = ['#', ' '] ++ s.toList := String.toList_append
  refine ⟨?_, ?_⟩
  · simpa [hline] using h.noNewline
  · rw [hline, List.getLast?_append]
    cases hlast : s.toList.getLast? with
    | none => decide
    | some c =>
      rw [Option.some_or, ← hlast]
      exact h.noReturn

theorem Tellable.oneLine_compactionLine (h : Tellable c) :
    OneLine (compactionLine c.sequence c.inputNames c.outputNames) := by
  have hnewline : '\n' ∉ (compactionLine c.sequence c.inputNames c.outputNames).toList :=
    not_mem_compactionLine (by decide) (by decide)
      (List.forall_mem_map.mpr fun i hi => (h.inputBare i hi).noNewline)
      (List.forall_mem_map.mpr fun i hi => (h.outputBare i hi).noNewline)
  have hreturn : '\r' ∉ (compactionLine c.sequence c.inputNames c.outputNames).toList :=
    not_mem_compactionLine (by decide) (by decide)
      (List.forall_mem_map.mpr fun i hi => (h.inputBare i hi).noReturn)
      (List.forall_mem_map.mpr fun i hi => (h.outputBare i hi).noReturn)
  exact ⟨hnewline, fun hlast => hreturn (List.mem_of_getLast? hlast)⟩

theorem Tellable.oneLine (h : Tellable c) : ∀ l ∈ linesFor c, OneLine l := by
  intro l hl
  rcases List.mem_append.mp hl with hl | hl
  · obtain ⟨s, hs, rfl⟩ := Option.map_eq_some_iff.mp (Option.mem_toList.mp hl)
    exact oneLine_reasonLine (h.reason s hs)
  · rw [List.mem_singleton.mp hl]
    exact h.oneLine_compactionLine

/-! ## Replaying -/

theorem runLines_cons {line : String} {told : Option Compaction}
    (h : r.apply line = .ok (told, r')) :
    r.runLines (Bytes.ofText line :: rest) =
      ((r'.runLines rest).1.map (told.toList ++ ·), (r'.runLines rest).2) := by
  rw [Replay.runLines, Utf8.decode_ofText]
  dsimp only
  rw [h]

theorem apply_reasonLine : r.apply (reasonLine s) = .ok (none, { r with reason := some s }) := by
  rw [Replay.apply, parse_reasonLine]
  rfl

/-- A compaction comes back with the reason that was told last. -/
theorem Tellable.apply_compactionLine (h : Tellable c) (hr : r.creationTime = 0) :
    r.apply (compactionLine c.sequence c.inputNames c.outputNames) =
      .ok (some { c with reason := r.reason }, r) := by
  have hin : ∀ n ∈ c.inputNames, Listable n :=
    List.forall_mem_map.mpr fun i hi => (h.inputBare i hi).listable
  have hout : ∀ n ∈ c.outputNames, Listable n :=
    List.forall_mem_map.mpr fun i hi => (h.outputBare i hi).listable
  have hne : c.inputNames ≠ [] := mt List.map_eq_nil_iff.mp h.inputs
  have hne' : c.outputNames ≠ [] := mt List.map_eq_nil_iff.mp h.outputs
  have hinfos : c.inputNames.map (fun n => { name := n : FileInfo }) = c.inputs :=
    map_name_of_bare h.inputBare
  have hinfos' : c.outputNames.map (fun n => { name := n : FileInfo }) = c.outputs :=
    map_name_of_bare h.outputBare
  rw [Replay.apply, parse_compactionLine hin hout hne hne']
  simp only [Except.map, Replay.take, hinfos, hinfos', hr, ← h.time]

/-- Compactions with the reasons that they come back with: one without a reason has that of the last
one before it that has any, where at first a given reason was told. -/
def withReasons : Option String → List Compaction → List Compaction
  | _, [] => []
  | reason, c :: cs =>
    { c with reason := c.reason.or reason } :: withReasons (c.reason.or reason) cs

theorem Tellable.runLines_linesFor (h : Tellable c) (hr : r.creationTime = 0) :
    r.runLines ((linesFor c).map Bytes.ofText ++ rest) =
      let r' := { r with reason := c.reason.or r.reason }
      ((r'.runLines rest).1.map ({ c with reason := c.reason.or r.reason } :: ·),
        (r'.runLines rest).2) := by
  cases hreason : c.reason with
  | none =>
    have hlines : linesFor c = [compactionLine c.sequence c.inputNames c.outputNames] := by
      rw [linesFor, hreason]
      rfl
    rw [hlines, List.map_singleton, List.singleton_append,
      runLines_cons (h.apply_compactionLine hr)]
    rfl
  | some s =>
    have hlines : linesFor c =
        [reasonLine s, compactionLine c.sequence c.inputNames c.outputNames] := by
      rw [linesFor, hreason]
      rfl
    rw [hlines, List.map_cons, List.map_singleton, List.cons_append, List.singleton_append,
      runLines_cons apply_reasonLine,
      runLines_cons (h.apply_compactionLine (r := { r with reason := some s }) hr)]
    simp only [Option.some_or]
    cases (Replay.runLines { r with reason := some s } rest).1 <;> rfl

theorem runLines_flatMap (h : ∀ c ∈ cs, Tellable c) (hr : r.creationTime = 0) :
    ∃ r', r.runLines ((cs.flatMap linesFor).map Bytes.ofText) =
      (.ok (withReasons r.reason cs), r') := by
  induction cs generalizing r with
  | nil => exact ⟨r, rfl⟩
  | cons c cs ih =>
    rw [List.forall_mem_cons] at h
    obtain ⟨r', hrest⟩ := ih h.2 (r := { r with reason := c.reason.or r.reason }) hr
    rw [List.flatMap_cons, List.map_append, h.1.runLines_linesFor hr]
    dsimp only
    rw [hrest]
    exact ⟨r', rfl⟩

/-- Compactions come back as they were exactly if none without a reason stands behind one with a
reason. -/
theorem withReasons_eq_self : withReasons reason cs = cs ↔
    (reason.isSome → ∀ c ∈ cs, c.reason.isSome) ∧
      cs.Pairwise fun a b => a.reason.isSome → b.reason.isSome := by
  induction cs generalizing reason with
  | nil => simp [withReasons]
  | cons c cs ih =>
    have hhead : ({ c with reason := c.reason.or reason } : Compaction) = c ↔
        (reason.isSome → c.reason.isSome) := by
      obtain ⟨sequence, time, inputs, outputs, told⟩ := c
      cases told <;> cases reason <;> simp
    have htail (hc : reason.isSome → c.reason.isSome) : c.reason.or reason = c.reason := by
      cases hreason : c.reason with
      | some s => rfl
      | none =>
        rw [hreason] at hc
        cases reason with
        | none => rfl
        | some s => cases hc rfl
    rw [withReasons, List.cons.injEq, hhead, List.pairwise_cons, List.forall_mem_cons]
    constructor
    · rintro ⟨hc, hrest⟩
      rw [htail hc, ih] at hrest
      exact ⟨fun h => ⟨hc h, hrest.1 (hc h)⟩, fun b hb h => hrest.1 h b hb, hrest.2⟩
    · rintro ⟨hreason, hc, hrest⟩
      have hhere (h : reason.isSome) : c.reason.isSome := (hreason h).1
      refine ⟨hhere, ?_⟩
      rw [htail hhere, ih]
      exact ⟨fun h b hb => hc b hb h, hrest⟩

/-! ## Files -/

theorem run_runFile {d : Disk} {p : Path} {id : FileId} (hq : d.outage = .quiet)
    (hp : d.at? p = some (.file id)) : (r.runFile p).run d = (r.run (d.content id), d) := by
  have hread : Runs (Disk.readAll p) d (.ok (d.content id)) d :=
    (Disk.runs_query_quiet hq).mpr ⟨rfl, (Disk.bytesAt_eq hp).symm⟩
  change ((Disk.readAll p).run >>= _).run d = _
  rw [StateT.run_bind, show (Disk.readAll p).run.run d = _ from hread]
  rfl

/-- What was written to a new log file is in it. -/
theorem runs_extend_new {d : Disk} {p : Path} (hq : d.outage = .quiet) (hnew : d.at? p = none)
    (hmake : ∃ made, d.withFile p = .ok made) (lines : List String) :
    ∃ d' id, Runs (extend p lines) d (.ok ()) d' ∧ d'.outage = .quiet ∧
      d'.at? p = some (.file id) ∧ d'.content id = bytesOf lines := by
  obtain ⟨⟨id, d₁⟩, hmake⟩ := hmake
  have hq₁ : d₁.outage = .quiet := (Disk.withFile_eq_ok hmake).quiet hq
  have hempty : d₁.content id = [] := by
    obtain ⟨-, -, -, ⟨-, rfl⟩ | ⟨-, rfl, rfl⟩⟩ := Disk.withFile_spec hmake
    · cases (Disk.at?_of_withFile hmake).symm.trans hnew
    · simp [Disk.content]
  refine ⟨d₁.withContent id (bytesOf lines), id, ?_, hq₁, ?_, ?_⟩
  · refine runs_bind_ok.mpr ⟨id, d₁, (Disk.runs_openFile_quiet hq).mpr hmake, ?_⟩
    simp [Disk.runs_append_quiet hq₁, hempty]
  · simpa using Disk.at?_of_withFile hmake
  · simp [Disk.content_withContent]

/-- A log that is written to a new file tells a fresh reader of the same compactions, each of those
without a reason with that of the last one before it that has any. So they come back as they were
exactly if none without a reason stands behind one with a reason. -/
theorem runFile_extend {d : Disk} {p : Path} (hq : d.outage = .quiet) (hnew : d.at? p = none)
    (hmake : ∃ made, d.withFile p = .ok made) (hcs : ∀ c ∈ cs, Tellable c) :
    ∃ d' r, Runs (extend p (cs.flatMap linesFor)) d (.ok ()) d' ∧
      (Replay.runFile {} p).run d' = ((.ok (withReasons none cs), r), d') ∧
      (withReasons none cs = cs ↔ cs.Pairwise fun a b => a.reason.isSome → b.reason.isSome) := by
  obtain ⟨d', id, hwrite, hq', hp, hcontent⟩ :=
    runs_extend_new hq hnew hmake (cs.flatMap linesFor)
  obtain ⟨r, hlines⟩ := runLines_flatMap (r := {}) hcs rfl
  have honeLine : ∀ l ∈ cs.flatMap linesFor, OneLine l := by
    intro l hl
    obtain ⟨c, hc, hl⟩ := List.mem_flatMap.mp hl
    exact (hcs c hc).oneLine l hl
  refine ⟨d', r, hwrite, ?_, ?_⟩
  · rw [run_runFile hq' hp, hcontent, Replay.run, linesOf_bytesOf honeLine, hlines]
  · simp [withReasons_eq_self]

end Lineage.TextLog

/-! ## Logs of two compactions -/

namespace Lineage.Sample

open TextLog

/-- A compaction as a log tells of it. -/
def told (sequence : UInt64) (reason : Option String) : Compaction where
  sequence
  time := 0
  inputs := [{ name := "000003" }]
  outputs := [{ name := "000008" }, { name := "000009" }]
  reason

theorem bare_of_digits : ∀ n ∈ ["000003", "000008", "000009"], Bare { name := n } := by
  simp only [List.forall_mem_cons]
  refine ⟨?_, ?_, ?_, nofun⟩ <;>
    exact ⟨rfl, ⟨by decide, by decide, by decide, by decide⟩, by decide, by decide⟩

theorem tellable_told {sequence : UInt64} {reason : Option String}
    (h : ∀ s, reason = some s → OneLine s) : Tellable (told sequence reason) where
  time := rfl
  inputs := List.cons_ne_nil _ _
  outputs := List.cons_ne_nil _ _
  inputBare := by simp [told, bare_of_digits]
  outputBare := by simp [told, bare_of_digits]
  reason := h

theorem tellable_untold {sequence : UInt64} : Tellable (told sequence none) :=
  tellable_told nofun

theorem tellable_manual {sequence : UInt64} :
    Tellable (told sequence (some "ManualCompaction")) := by
  refine tellable_told fun s hs => ?_
  rw [← Option.some.inj hs]
  exact ⟨by decide, by decide⟩

/-- A log file that is new. -/
def newLog : Path := ⟨"/000001.log"⟩

theorem at?_newLog : ({} : Disk).at? newLog = none := by decide +kernel

theorem withFile_newLog : ∃ made, ({} : Disk).withFile newLog = .ok made :=
  Disk.exists_withFile_iff.mpr ⟨by decide, ⟨_, rfl⟩, by decide +kernel, by decide +kernel⟩

/-- A reason is not read into the compactions before it. -/
theorem runFile_late_reason :
    ({} : Disk).outage = .quiet ∧ ({} : Disk).at? newLog = none ∧
    (∃ made, ({} : Disk).withFile newLog = .ok made) ∧
    (∀ c ∈ [told 17 none, told 18 (some "ManualCompaction")], Tellable c) ∧
    ∃ d' r, Runs (extend newLog
        ([told 17 none, told 18 (some "ManualCompaction")].flatMap linesFor)) {} (.ok ()) d' ∧
      (Replay.runFile {} newLog).run d' =
        ((.ok [told 17 none, told 18 (some "ManualCompaction")], r), d') := by
  have htold : ∀ c ∈ [told 17 none, told 18 (some "ManualCompaction")], Tellable c := by
    simp [tellable_untold, tellable_manual]
  obtain ⟨d', r, hwrite, hread, hself⟩ := runFile_extend rfl at?_newLog withFile_newLog htold
  refine ⟨rfl, at?_newLog, withFile_newLog, htold, d', r, hwrite, ?_⟩
  rw [hread, hself.mpr (by simp [told])]

/-- A compaction that was told of without a reason comes back with the reason of the one before. -/
theorem runFile_early_reason :
    ({} : Disk).outage = .quiet ∧ ({} : Disk).at? newLog = none ∧
    (∀ c ∈ [told 17 (some "ManualCompaction"), told 18 none], Tellable c) ∧
    ∃ d' r, Runs (extend newLog
        ([told 17 (some "ManualCompaction"), told 18 none].flatMap linesFor)) {} (.ok ()) d' ∧
      (Replay.runFile {} newLog).run d' =
        ((.ok [told 17 (some "ManualCompaction"), told 18 (some "ManualCompaction")], r), d') ∧
      [told 17 (some "ManualCompaction"), told 18 (some "ManualCompaction")] ≠
        [told 17 (some "ManualCompaction"), told 18 none] := by
  obtain ⟨d', id, hwrite, hq, hfile, hcontent⟩ := runs_extend_new rfl at?_newLog withFile_newLog
    ([told 17 (some "ManualCompaction"), told 18 none].flatMap linesFor)
  have hread : (Replay.run {} (bytesOf
      ([told 17 (some "ManualCompaction"), told 18 none].flatMap linesFor))).1 =
      .ok [told 17 (some "ManualCompaction"), told 18 (some "ManualCompaction")] :=
    eq_ok_of_toOption (by decide +kernel)
  refine ⟨rfl, at?_newLog, ?_, d', (Replay.run {} (d'.content id)).2, hwrite, ?_, by decide⟩
  · simp [tellable_untold, tellable_manual]
  · rw [run_runFile hq hfile, ← hread, hcontent]

end Lineage.Sample
