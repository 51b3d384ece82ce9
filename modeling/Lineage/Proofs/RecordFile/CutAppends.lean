import Lineage.Proofs.RecordFile.Requests
import Lineage.Proofs.Tables

/-!
# Appends that stop part-way

An append that stops part-way leaves a cut frame behind the whole ones. The table has the rows that
it had, and opening it anew drops the cut frame, after which no change is lost
(`mutate_cut`). As long as the table stays open, though, what later changes add stands behind the
cut frame and is read as part of it.
-/

namespace Lineage

/-! ## Changes by their records -/

/-- Makes the change that a record is of. -/
def RecordFile.mutate (t : RecordFile) : RecordFile.Record → Disk.Action TableError RecordFile
  | .put k v => t.put k v
  | .delete k => t.delete k

/-- Makes a change of the history. -/
def Host.mutate : RecordFile.Record → Host.Action TableError Unit
  | .put k v => Host.putRow k v
  | .delete k => Host.deleteRow k

/-- Makes changes of the history, one after the other. -/
def Host.mutateAll : List RecordFile.Record → Host.Action TableError Unit
  | [] => pure ()
  | r :: rs => do
    Host.mutate r
    Host.mutateAll rs

/-- A change that is written to the file: one that can be written, and no deletion of a row that is
not there. -/
def RecordFile.Writes (t : RecordFile) (r : RecordFile.Record) : Prop :=
  r.Fits ∧ ∀ k, r = .delete k → t.rows.contains k = true

namespace RecordFile

open Disk (Within)

variable {d d' : Disk} {p : Path} {t t' : RecordFile} {ratio n : Nat} {r : Record}
  {rs qs : List Record} {f : DiskFault} {b : Bytes} {h h' : Host}

theorem mutate_of_writes (hr : t.Writes r) : t.mutate r = t.change r := by
  cases r with
  | put k v => rfl
  | delete k => exact if_pos (hr.2 k rfl)

/-- A change goes through on a disk where nothing fails, whatever the file holds. -/
theorem exists_runs_mutate (hq : d.outage = .quiet) :
    ∃ (b : Bytes) (d' : Disk), b.length ≤ r.frame.length ∧
      Runs (t.mutate r) d (.ok { t with rows := r.applyTo t.rows }) d' ∧
      d'.content t.file = d.content t.file ++ b ∧ Within (fun _ => False) d d' := by
  have hcontent : (d.withContent t.file (d.content t.file ++ r.frame)).content t.file =
      d.content t.file ++ r.frame := Disk.content_withContent.trans (if_pos rfl)
  by_cases hr : ∃ k, r = .delete k ∧ ¬ t.rows.contains k = true
  · obtain ⟨k, rfl, hk⟩ := hr
    refine ⟨[], d, Nat.zero_le _, ?_, (List.append_nil _).symm, Frame.refl d⟩
    rw [mutate, RecordFile.delete, if_neg hk, Record.applyTo, erase_eq_self hk]
    exact runs_pure.mpr ⟨rfl, rfl⟩
  · refine ⟨r.frame, _, Nat.le_refl _, ?_, hcontent, .content rfl rfl⟩
    cases r with
    | put k v => exact runs_change hq
    | delete k =>
      rw [mutate, RecordFile.delete, if_pos (by_contra fun hk => hr ⟨k, rfl, hk⟩)]
      exact runs_change hq

theorem Open.mutate (ho : t.Open d) (hr : r.Fits) :
    ∃ d', Runs (t.mutate r) d (.ok { t with rows := r.applyTo t.rows }) d' ∧
      Open { t with rows := r.applyTo t.rows } d' := by
  cases r with
  | put k v => exact ho.put hr
  | delete k => exact ho.delete k

/-- What a change leaves whose append stops part-way. -/
theorem runs_mutate_cut (hr : t.Writes r) (hnext : d.outage 0 .append = some f) :
    Runs (t.mutate r) d (.error (.io f.error)) (({ d with outage := d.outage.later } : Disk).withContent
      t.file (d.content t.file ++ r.frame.take f.written)) := by
  rw [mutate_of_writes hr, change, runs_bind]
  refine .inr ⟨_, runs_adapt_error.mpr ⟨f.error, ?_, rfl⟩, rfl⟩
  exact (Disk.runs_append_fault hnext).mpr ⟨rfl, rfl⟩

/-! ## Hosts -/

/-- A change of the history is one of its table. -/
theorem hostMutate_eq (r : Record) (hist : h.history = .recorded t) : ∃ op a,
    Host.mutate r = Host.changeHistory op a ∧ a h.history = Table.recorded <$> t.mutate r := by
  rw [hist]
  cases r with
  | put k v => exact ⟨.put, (·.put k v), rfl, rfl⟩
  | delete k => exact ⟨.delete, (·.delete k), rfl, rfl⟩

theorem runs_hostMutate_ok (hist : h.history = .recorded t) (hh : h.outage = .quiet)
    (hrun : Runs (t.mutate r) h.disk (.ok t') d') :
    Runs (Host.mutate r) h (.ok ()) { h with disk := d', history := .recorded t' } := by
  obtain ⟨op, a, hmutate, ha⟩ := hostMutate_eq r hist
  rw [hmutate, Host.runs_changeHistory_ok, ha, hh]
  exact ⟨rfl, .recorded t', d', runs_map_ok.mpr ⟨t', hrun, rfl⟩, rfl⟩

theorem runs_hostMutate_error {e : TableError} (hist : h.history = .recorded t)
    (hh : h.outage = .quiet) (hrun : Runs (t.mutate r) h.disk (.error e) d') :
    Runs (Host.mutate r) h (.error e) { h with disk := d' } := by
  obtain ⟨op, a, hmutate, ha⟩ := hostMutate_eq r hist
  rw [hmutate, Host.runs_changeHistory_error, ha, hh]
  exact .inr ⟨rfl, d', runs_map_error.mpr hrun, rfl⟩

/-- Changes go through on a disk where nothing fails, and add to the file no more than their
frames. -/
theorem exists_runs_mutateAll (rs : List Record) (hist : h.history = .recorded t) (hh : h.outage = .quiet)
    (hq : h.disk.outage = .quiet) : ∃ (b : Bytes) (h' : Host),
      b.length ≤ (rs.flatMap Record.frame).length ∧ Runs (Host.mutateAll rs) h (.ok ()) h' ∧
      h'.disk.content t.file = h.disk.content t.file ++ b ∧
      Within (fun _ => False) h.disk h'.disk := by
  induction rs generalizing t h with
  | nil =>
    exact ⟨[], h, Nat.le_refl _, runs_pure.mpr ⟨rfl, rfl⟩, (List.append_nil _).symm, Frame.refl _⟩
  | cons r rs ih =>
    obtain ⟨b, d, hb, hrun, hcontent, hw⟩ := exists_runs_mutate (t := t) (r := r) hq
    obtain ⟨c, h', hc, hruns, hcontent', hw'⟩ :=
      ih (h := { h with disk := d, history := .recorded { t with rows := r.applyTo t.rows } }) rfl hh
        (hw.quiet hq)
    refine ⟨b ++ c, h', ?_, runs_bind_ok.mpr ⟨(), _, runs_hostMutate_ok hist hh hrun, hruns⟩, ?_,
      Frame.trans hw hw'⟩
    · rw [List.flatMap_cons, List.length_append, List.length_append]
      exact Nat.add_le_add hb hc
    · rw [hcontent', hcontent, List.append_assoc]

theorem Open.mutateAll (ho : t.Open h.disk) (hist : h.history = .recorded t)
    (hh : h.outage = .quiet) (hrs : ∀ r ∈ rs, r.Fits) :
    ∃ h' t', Runs (Host.mutateAll rs) h (.ok ()) h' ∧ h'.history = .recorded t' ∧
      t'.path = t.path ∧ t'.rows = rs.foldl Record.applyTo t.rows ∧ t'.Open h'.disk := by
  induction rs generalizing t h with
  | nil => exact ⟨h, t, runs_pure.mpr ⟨rfl, rfl⟩, hist, rfl, rfl, ho⟩
  | cons r rs ih =>
    rw [List.forall_mem_cons] at hrs
    obtain ⟨d, hrun, hopen⟩ := ho.mutate hrs.1
    obtain ⟨h', t', hruns, hist', hpath, hrows, hopen'⟩ := ih (h := { h with
      disk := d, history := .recorded { t with rows := r.applyTo t.rows } }) hopen rfl hh hrs.2
    exact ⟨h', t', runs_bind_ok.mpr ⟨(), _, runs_hostMutate_ok hist hh hrun, hruns⟩, hist', hpath,
      hrows, hopen'⟩

theorem within_mutateAll (places : Place → Prop) (rs : List Record) :
    Moves (InvImage (Within places) Host.disk) (Host.mutateAll rs) := by
  induction rs with
  | nil => exact moves_pure
  | cons r rs ih =>
    refine moves_bind ?_ fun _ => ih
    cases r with
    | put k v => exact Host.within_putRow
    | delete k => exact Host.within_deleteRow

/-! ## Cut appends -/

/-- Whatever changes are made of the history from now on, opening its file anew gives the rows that
it has in memory by then, unless the file is to be written anew and cannot be. -/
def Keeps (p : Path) (h : Host) : Prop :=
  ∀ rs : List Record, (∀ r ∈ rs, r.Fits) → ∃ h', Runs (Host.mutateAll rs) h (.ok ()) h' ∧
    h'.history.rows = rs.foldl Record.applyTo h.history.rows ∧
    (Renewable h'.disk p ↔ Renewable h.disk p) ∧
    ∀ ratio, Ready h'.disk p ratio →
      ∃ t d, Runs (openAt p ratio) h'.disk (.ok t) d ∧ t.rows = h'.history.rows

theorem keeps_of_open (ho : t.Open h.disk) (hist : h.history = .recorded t)
    (hh : h.outage = .quiet) : Keeps t.path h := by
  intro rs hrs
  obtain ⟨h', t', hruns, hist', hpath, hrows, hopen⟩ := ho.mutateAll hist hh hrs
  refine ⟨h', hruns, by rw [hist', hist]; exact hrows,
    renewable_within (within_mutateAll (fun _ => False) rs _ _ _ hruns), fun ratio hr => ?_⟩
  rw [← hpath] at hr
  obtain ⟨t'', d', hrun, -, hrows'', -⟩ := hopen.reopen hr
  rw [hpath] at hrun
  exact ⟨t'', d', hrun, by rw [hrows'', hist']; rfl⟩

/-- An append that stops part-way fails and leaves the history as it was. Opening its file anew gives
the same rows, and no change made after that is lost; nor is one that is made at once, if nothing of
the frame was written. Where its length was written, though, changes made at once that do not fill
the frame are lost, although they go through. Only where its file is to be written anew and cannot
be is it not opened. -/
theorem mutate_cut (hist : h.history = .recorded t) (hh : h.outage = .quiet)
    (ho : t.Open h.disk.calm) (hr : t.Writes r) (hnext : h.disk.outage 0 .append = some f)
    (hlater : h.disk.outage.later = .quiet) (hcut : f.written < r.frame.length) :
    ∃ h', Runs (Host.mutate r) h (.error (.io f.error)) h' ∧ h'.history = h.history ∧
      (Renewable h'.disk t.path ↔ Renewable h.disk.calm t.path) ∧
      (∀ ratio, Ready h'.disk t.path ratio →
        ∃ t' d', Runs (openAt t.path ratio) h'.disk (.ok t') d' ∧ t'.rows = t.rows ∧
          Keeps t.path { h' with disk := d', history := .recorded t' }) ∧
      (f.written = 0 → Keeps t.path h') ∧
      (4 ≤ f.written → ∀ rs : List Record,
        f.written + (rs.flatMap Record.frame).length < r.frame.length →
          ∃ h'', Runs (Host.mutateAll rs) h' (.ok ()) h'' ∧
            (Renewable h''.disk t.path ↔ Renewable h.disk.calm t.path) ∧
            ∀ ratio, Ready h''.disk t.path ratio →
              ∃ t' d', Runs (openAt t.path ratio) h''.disk (.ok t') d' ∧ t'.rows = t.rows) := by
  have hrun := runs_hostMutate_error hist hh (runs_mutate_cut hr hnext)
  generalize hd : ({ h.disk with outage := h.disk.outage.later } : Disk).withContent t.file
    (h.disk.content t.file ++ r.frame.take f.written) = d at hrun
  obtain ⟨rs, hframed, hrows⟩ := ho.framed
  have hw : Within (fun _ => False) h.disk.calm d := by
    rw [← hd]
    exact .content rfl hlater
  have hq : d.outage = .quiet := hw.quiet rfl
  have hfile : d.at? t.path = some (.file t.file) := (hw.at?_eq not_false).trans ho.file
  have hcontent : d.content t.file = h.disk.calm.content t.file ++ r.frame.take f.written := by
    rw [← hd, Disk.content_withContent, if_pos rfl]
    rfl
  refine ⟨_, hrun, rfl, renewable_within hw, fun ratio hready => ?_, fun hnothing => ?_,
    fun hlength qs hshort => ?_⟩
  · obtain ⟨t', d', hopen, hpath, hrows', ho'⟩ := exists_runs_openAt hq hready hfile hcontent
      hframed (head_take_frame hr.1 hcut)
    refine ⟨t', d', hopen, hrows'.trans hrows.symm, ?_⟩
    rw [← hpath]
    exact keeps_of_open ho' rfl hh
  · refine keeps_of_open (t := t) ⟨hq, hfile, rs, ?_, hrows⟩ hist hh
    rw [hcontent, hnothing, List.take_zero, List.append_nil]
    exact hframed
  · obtain ⟨b, h', hb, hruns, hcontent', hw'⟩ :=
      exists_runs_mutateAll (h := { h with disk := d }) qs hist hh hq
    refine ⟨h', hruns, (renewable_within hw').trans (renewable_within hw), fun ratio hready => ?_⟩
    obtain ⟨t', d', hopen, -, hrows', -⟩ := exists_runs_openAt (hw'.quiet hq) hready
      ((hw'.at?_eq not_false).trans hfile)
      (hcontent'.trans (by rw [hcontent, List.append_assoc])) hframed
      (head_cut_frame hr.1 hlength (Nat.lt_of_le_of_lt (Nat.add_le_add_left hb _) hshort))
    exact ⟨t', d', hopen, hrows'.trans hrows.symm⟩

end RecordFile

namespace Sample

open RecordFile

/-! ### A cut append -/

/-- A change with a long value. -/
def long : Record := .put [3] (List.replicate 40 0)

/-- The next append stops behind the header of its frame, and nothing fails after that. -/
def stop : Outage DiskOperation DiskFault
  | 0, .append => some ⟨⟨.other, none⟩, headerSize⟩
  | _, _ => none

def stopping : Host where
  disk := { shelved (Record.put [1] [2]).frame with outage := stop }
  history := .recorded ⟨shelf, 0, oneRow⟩

theorem checked_stopping : Renews stopping.disk.calm ∧
    stopping.disk.calm.at? shelf = some (.file 0) ∧
    stopping.disk.calm.content 0 = (Record.put [1] [2]).frame ∧
    headerSize < long.frame.length := by
  decide +kernel

theorem open_stopping : Open ⟨shelf, 0, oneRow⟩ stopping.disk.calm where
  quiet := rfl
  file := checked_stopping.2.1
  framed := by
    refine ⟨[.put [1] [2]], ?_, rfl⟩
    rw [checked_stopping.2.2.1]
    exact framed_frame (by decide)

theorem later_stopping : stopping.disk.outage.later = .quiet := rfl

theorem renewable_stopping : Renewable stopping.disk.calm shelf := renewable_shelf checked_stopping.1

theorem mutate_stopping : ∃ h',
    Runs (Host.mutate long) stopping (.error (.io ⟨.other, none⟩)) h' ∧
    h'.history = stopping.history ∧
    (∀ ratio, ∃ t' d', Runs (openAt shelf ratio) h'.disk (.ok t') d' ∧ t'.rows = oneRow ∧
      Keeps shelf { h' with disk := d', history := .recorded t' }) ∧
    (4 ≤ headerSize → ∀ rs : List Record,
      headerSize + (rs.flatMap Record.frame).length < long.frame.length →
        ∃ h'', Runs (Host.mutateAll rs) h' (.ok ()) h'' ∧
          ∀ ratio, ∃ t' d', Runs (openAt shelf ratio) h''.disk (.ok t') d' ∧ t'.rows = oneRow) := by
  obtain ⟨h', hrun, hist, hrenewable, hreopened, -, hlost⟩ := mutate_cut (h := stopping)
    (t := ⟨shelf, 0, oneRow⟩) (r := long) (f := ⟨⟨.other, none⟩, headerSize⟩) rfl rfl open_stopping
    ⟨by decide, fun k hk => nomatch hk⟩ rfl later_stopping checked_stopping.2.2.2
  refine ⟨h', hrun, hist, fun ratio => ?_, fun hlength rs hshort => ?_⟩
  · exact hreopened ratio ((hrenewable.mpr renewable_stopping).ready ratio)
  · obtain ⟨h'', hruns, hrenewable', hreopened'⟩ := hlost hlength rs hshort
    exact ⟨h'', hruns, fun ratio =>
      hreopened' ratio ((hrenewable'.mpr renewable_stopping).ready ratio)⟩

/-- A row that is put behind a cut frame goes through, and is not there once the table is opened
anew. -/
theorem not_keeps_stopping : ∃ h', Runs (Host.mutate long) stopping (.error (.io ⟨.other, none⟩)) h' ∧
    h'.history = stopping.history ∧ ¬ Keeps shelf h' := by
  have hrun := runs_hostMutate_error (h := stopping) (r := long) rfl rfl
    (runs_mutate_cut ⟨by decide, fun k hk => nomatch hk⟩ rfl)
  refine ⟨_, hrun, rfl, fun hkeeps => ?_⟩
  obtain ⟨h', hput, hrows, hrenewable, hopens⟩ := hkeeps [.put [5] [6]] (by decide)
  have hrenews : Renewable h'.disk shelf := hrenewable.mpr (renewable_shelf (by decide +kernel))
  obtain ⟨t, d, hopen, ht⟩ := hopens 4 (hrenews.ready 4)
  have hreopened := congrArg (fun x => x.1.toOption.map RecordFile.rows) hopen
  rw [← show _ = h' from congrArg Prod.snd hput] at hreopened
  have hlost : some t.rows = some oneRow := hreopened.symm.trans (by decide +kernel)
  rw [Option.some.inj hlost, hrows] at ht
  exact absurd ht (by decide +kernel)

end Sample

end Lineage
