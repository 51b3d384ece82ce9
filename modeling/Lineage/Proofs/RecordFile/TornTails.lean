import Lineage.Proofs.RecordFile.CutAppends
import Lineage.Proofs.RecordFile.Damage

/-!
# Files with a torn tail

A file of records that was cut off somewhere, or whose last record was not written as it should be,
is opened with the records in front of that place: with as many of them as the file holds whole
(`openAt_torn`). No more of them can be told apart from the bytes, since what follows them does not
begin with a whole record (`longestWhole_of_torn`). The file is made whole again, so that changes
made after that are kept.
-/

namespace Lineage.RecordFile

variable {d d' : Disk} {p : Path} {t : RecordFile} {id : FileId} {r : Record} {rs qs : List Record}
  {b tail payload : Bytes} {n : Nat}

/-- What is left of a file of records: its bytes up to some place, or all of them but for the last
record, which does not agree with its checksum. -/
inductive Torn : List Record → Bytes → Prop where
  | cut (rs : List Record) (n : Nat) : Torn rs ((rs.flatMap Record.frame).take n)
  | spoiled (rs : List Record) (r : Record) {payload : Bytes}
      (length : payload.length = (Record.format.write r).length)
      (sum : Crc32c.checksum payload ≠ Crc32c.checksum (Record.format.write r)) :
      Torn (rs ++ [r]) (rs.flatMap Record.frame ++ (r.frame.take headerSize ++ payload))

/-- The longest list of records, from the first one on, whose frames stand whole at the beginning of
some bytes. -/
structure LongestWhole (rs : List Record) (b : Bytes) (qs : List Record) : Prop where
  front : qs <+: rs
  whole : qs.flatMap Record.frame <+: b
  longest : ∀ qs', qs' <+: rs → qs'.flatMap Record.frame <+: b → qs'.length ≤ qs.length

/-! ## Whole records -/

/-- Where a torn tail follows some records, no more of them are whole. -/
theorem longestWhole_of_torn (hrs : ∀ r ∈ rs, r.Fits) (hfront : qs <+: rs)
    (htail : head tail = .torn) : LongestWhole rs (qs.flatMap Record.frame ++ tail) qs where
  front := hfront
  whole := List.prefix_append _ _
  longest qs' hfront' hwhole := by
    by_contra hmore
    rw [Nat.not_le] at hmore
    -- The next record would stand whole at the beginning of the tail.
    obtain ⟨more, rfl⟩ := List.prefix_of_prefix_length_le hfront hfront' (Nat.le_of_lt hmore)
    cases more with
    | nil => simp at hmore
    | cons r more =>
      have hr : r.Fits := hrs r (hfront'.subset (by simp))
      rw [List.flatMap_append, List.prefix_append_right_inj, List.flatMap_cons] at hwhole
      obtain ⟨rest, rfl⟩ := hwhole
      rw [List.append_assoc, head_frame hr] at htail
      cases htail

theorem exists_whole_of_cut (hrs : ∀ r ∈ rs, r.Fits) (n : Nat) :
    ∃ qs tail, qs <+: rs ∧ (rs.flatMap Record.frame).take n = qs.flatMap Record.frame ++ tail ∧
      head tail = .torn := by
  induction rs generalizing n with
  | nil => exact ⟨[], [], List.nil_prefix, List.take_nil, head_nil⟩
  | cons r rs ih =>
    rw [List.forall_mem_cons] at hrs
    rw [List.flatMap_cons]
    by_cases hn : n < r.frame.length
    · refine ⟨[], r.frame.take n, List.nil_prefix, ?_, head_take_frame hrs.1 hn⟩
      exact List.take_append_of_le_length (Nat.le_of_lt hn)
    · obtain ⟨qs, tail, hfront, hcut, htail⟩ := ih hrs.2 (n - r.frame.length)
      refine ⟨r :: qs, tail, (List.prefix_cons_inj r).mpr hfront, ?_, htail⟩
      rw [List.take_append, List.take_of_length_le (Nat.not_lt.mp hn), hcut, List.flatMap_cons,
        List.append_assoc]

/-- A last record that does not agree with its checksum is taken for one that was being written. -/
theorem head_spoiled (hr : r.Fits) (hlength : payload.length = (Record.format.write r).length)
    (hsum : Crc32c.checksum payload ≠ Crc32c.checksum (Record.format.write r)) :
    head (r.frame.take headerSize ++ payload) = .torn := by
  obtain ⟨length, checksum, hframe, hl, hc, htold, hstored⟩ := Record.frame_append hr []
  rw [List.append_nil, List.append_nil] at hframe
  have hheader : r.frame.take headerSize = length ++ checksum := by
    have h : headerSize = (length ++ checksum).length := by rw [List.length_append, hl, hc]; rfl
    rw [hframe, ← List.append_assoc, h, List.take_left]
  have hwhole : Bytes.toNat length = payload.length := htold.trans hlength.symm
  rw [hheader, List.append_assoc, head_parts hl hc, hwhole, if_neg (Nat.lt_irrefl _),
    List.take_length, List.drop_length, if_neg (hstored ▸ hsum), if_pos rfl]

theorem Torn.exists_whole (h : Torn rs b) (hrs : ∀ r ∈ rs, r.Fits) :
    ∃ qs tail, qs <+: rs ∧ b = qs.flatMap Record.frame ++ tail ∧ head tail = .torn := by
  cases h with
  | cut _ n => exact exists_whole_of_cut hrs n
  | spoiled front r length sum =>
    have hr : r.Fits := hrs r (List.mem_append_right _ (List.mem_singleton_self r))
    exact ⟨front, _, List.prefix_append _ _, rfl, head_spoiled hr length sum⟩

/-! ## Opening -/

/-- Changes of an open table, one after the other, go through and leave it open. -/
theorem Open.foldlM_mutate (h : t.Open d) (hrs : ∀ r ∈ rs, r.Fits) :
    ∃ t' d', Runs (rs.foldlM RecordFile.mutate t) d (.ok t') d' ∧ t'.path = t.path ∧
      t'.rows = rs.foldl Record.applyTo t.rows ∧ t'.Open d' := by
  induction rs generalizing t d with
  | nil => exact ⟨t, d, runs_pure.mpr ⟨rfl, rfl⟩, rfl, rfl, h⟩
  | cons r rs ih =>
    rw [List.forall_mem_cons] at hrs
    obtain ⟨d₁, hrun, h₁⟩ := h.mutate hrs.1
    obtain ⟨t', d', hruns, hpath, hrows, h'⟩ := ih h₁ hrs.2
    rw [List.foldlM_cons]
    exact ⟨t', d', runs_bind_ok.mpr ⟨_, d₁, hrun, hruns⟩, hpath, hrows, h'⟩

theorem moves_foldlM_mutate {places : Place → Prop} :
    Moves (Disk.Within places) (rs.foldlM mutate t) := by
  induction rs generalizing t with
  | nil => exact moves_pure
  | cons r rs ih =>
    rw [List.foldlM_cons]
    refine moves_bind ?_ fun _ => ih
    cases r with
    | put k v => exact moves_change
    | delete k => exact moves_delete

/-- What an opening gives of a file that holds some records whole: a table with their rows, on a
file that is replayed to its end; and whatever is put and deleted from then on, the file comes to
the rows with these changes. -/
structure Recovers (p : Path) (qs : List Record) (d : Disk) (t : RecordFile) : Prop where
  rows : t.rows = rowsOf qs
  kept : Kept p d (rowsOf qs)
  goes_on : ∀ cs : List Record, (∀ r ∈ cs, r.Fits) → ∃ t' d', Runs (cs.foldlM mutate t) d (.ok t') d' ∧
    t'.rows = (qs ++ cs).foldl Record.applyTo ∅ ∧ Kept p d' t'.rows ∧
    (Renewable d' p ↔ Renewable d p)

theorem Open.recovers (h : t.Open d) (hrows : t.rows = rowsOf qs) : Recovers t.path qs d t where
  rows := hrows
  kept := hrows ▸ h.kept
  goes_on cs hcs := by
    obtain ⟨t', d', hruns, hpath, hrows', ho'⟩ := h.foldlM_mutate hcs
    have hw : Disk.Within (fun _ => False) _ d' := moves_foldlM_mutate _ _ _ hruns
    refine ⟨t', d', hruns, ?_, hpath ▸ ho'.kept, renewable_within hw⟩
    rw [hrows', hrows, rowsOf, List.foldl_append]

/-- A file with a torn tail is opened with the longest list of records, from the first one on, that
it holds whole, unless it is to be written anew and cannot be. It is then replayed to its end and
comes to the same rows; and whatever is put and deleted from then on, the next opening gives the rows
with these changes, unless the file is to be written anew and cannot be. A file that is not opened
is as it was, or has been written anew and comes to the same rows. -/
theorem openAt_torn (hq : d.outage = .quiet) (hfile : d.at? p = some (.file id))
    (hrs : ∀ r ∈ rs, r.Fits) (htorn : Torn rs (d.content id)) (ratio : Nat) :
    ∃ qs x d', LongestWhole rs (d.content id) qs ∧ Runs (openAt p ratio) d x d' ∧
      ((∃ t, x = .ok t) ↔ Ready d p ratio) ∧ (Renewable d' p ↔ Renewable d p) ∧
      (∀ t, x = .ok t → Recovers p qs d' t) ∧
      ∀ e, x = .error e → d' = d ∨ Kept p d' (rowsOf qs) := by
  obtain ⟨qs, tail, hfront, hcontent, htail⟩ := htorn.exists_whole hrs
  have hlongest := longestWhole_of_torn hrs hfront htail
  rw [← hcontent] at hlongest
  have hframed : Framed (qs.flatMap Record.frame) qs :=
    framed_flatMap fun r hmem => hrs r (hfront.subset hmem)
  obtain ⟨x, d', hrun⟩ := exists_runs (openAt p ratio) d
  refine ⟨qs, x, d', hlongest, hrun, ?_, renewable_within (within_of_openAt hq hfile hrun), ?_⟩
  · cases opens_of_openAt hq hfile hcontent hframed htail hrun with
    | opened ready => exact ⟨fun _ => ready, fun _ => ⟨_, rfl⟩⟩
    | renewed stuck => exact ⟨nofun, fun hr => absurd hr stuck⟩
    | refused stuck => exact ⟨nofun, fun hr => absurd hr stuck⟩
  · cases opens_of_openAt hq hfile hcontent hframed htail hrun with
    | opened _ path same table =>
      subst path
      refine ⟨fun t ht => ?_, nofun⟩
      cases ht
      exact table.recovers same
    | renewed _ held =>
      obtain ⟨i, hi⟩ := held
      exact ⟨nofun, fun _ _ => .inr hi.kept⟩
    | refused _ same => exact ⟨nofun, fun _ _ => .inl same⟩

end Lineage.RecordFile

namespace Lineage.Sample

open RecordFile

/-! ### A file that was cut off, and one with a spoiled end -/

def entered : List Record := [.put [1] [2], .put [3] [4]]

/-- The file ends inside the second record. -/
def cutOff : Disk := shelved ((entered.flatMap Record.frame).take 40)

/-- The second record is there in its length, but not written. -/
def unwritten : Disk :=
  shelved ((Record.put [1] [2]).frame ++ ((Record.put [3] [4]).frame.take headerSize ++
    List.replicate 22 0))

/-- The file of a disk is opened with one row, that of the records it holds whole, and keeps a
second one that is put then. -/
def OpensWithOneRow (d : Disk) : Prop :=
  ∃ qs t d', LongestWhole entered (d.content 0) qs ∧ Runs (openAt shelf 4) d (.ok t) d' ∧
    t.rows = rowsOf qs ∧ t.rows = oneRow ∧
    ∃ t' d₁, Runs ([Record.put [5] [6]].foldlM mutate t) d' (.ok t') d₁ ∧
      ∀ ratio, ∃ t'' d₂, Runs (openAt shelf ratio) d₁ (.ok t'') d₂ ∧
        t''.rows = oneRow.insert [5] [6]

theorem openAt_torn_shelf : OpensWithOneRow cutOff ∧ OpensWithOneRow unwritten := by
  have hfits : ∀ r ∈ entered, r.Fits := by decide
  have opens {d : Disk} (hq : d.outage = .quiet) (htorn : Torn entered (d.content 0))
      (hchecked : Renews d ∧ d.at? shelf = some (.file 0) ∧
        ((openAt shelf 4).run.run d).1.toOption.map RecordFile.rows = some oneRow) :
      OpensWithOneRow d := by
    obtain ⟨hrenews, hfile, hgiven⟩ := hchecked
    have hrenewable := renewable_shelf hrenews
    obtain ⟨qs, x, d', hlongest, hopen, hopened, hafter, hrecovers, -⟩ :=
      openAt_torn hq hfile hfits htorn 4
    obtain ⟨t, rfl⟩ := hopened.mpr (hrenewable.ready 4)
    obtain ⟨hrows, -, hgoes_on⟩ := hrecovers t rfl
    have hone : t.rows = oneRow := by
      rw [show _ = _ from hopen] at hgiven
      exact Option.some.inj hgiven
    obtain ⟨t', d₁, hput, hrows', hkept, hafter'⟩ := hgoes_on [.put [5] [6]] (by decide)
    refine ⟨qs, t, d', hlongest, hopen, hrows, hone, t', d₁, hput, fun ratio => ?_⟩
    obtain ⟨t'', d₂, hagain⟩ :=
      (hkept.opens ratio).mpr ((hafter'.mpr (hafter.mpr hrenewable)).ready ratio)
    refine ⟨t'', d₂, hagain, ?_⟩
    rw [hkept.shows ratio t'' d₂ hagain, hrows', List.foldl_append, ← rowsOf, ← hrows, hone]
    rfl
  constructor
  · exact opens rfl (.cut entered 40) (by decide +kernel)
  · refine opens rfl (.spoiled [.put [1] [2]] (.put [3] [4]) ?_ ?_) (by decide +kernel)
    · decide +kernel
    · decide +kernel

/-- The same bytes at a path of one component. -/
def bareCut : Disk where
  nodes := (∅ : Std.ExtTreeMap Place Node).insert ["rows"] (.file 0)
  contents := cutOff.contents
  unused := 1

/-- The same bytes in a file whose name without its extension is two dots. -/
def dottedCut : Disk where
  nodes := ((∅ : Std.ExtTreeMap Place Node).insert ["tables"] .directory).insert
    ["tables", "..x"] (.file 0)
  contents := cutOff.contents
  unused := 1

/-- A file with a torn tail is not opened at a path of one component, although it is written anew,
nor where its name without its extension is two dots, and that one is left as it is. -/
theorem not_openAt_torn : Torn entered (cutOff.content 0) ∧
    (∃ d, Runs (openAt ⟨"rows"⟩ 4) bareCut (.error (.io ⟨.notFound, none⟩)) d ∧
      d.bytesAt ⟨"rows"⟩ = .ok (snapshot oneRow)) ∧
    ∃ d, Runs (openAt ⟨"tables/..x"⟩ 4) dottedCut (.error (.io ⟨.isDirectory, none⟩)) d ∧
      d.bytesAt ⟨"tables/..x"⟩ = dottedCut.bytesAt ⟨"tables/..x"⟩ := by
  refine ⟨.cut entered 40, ⟨_, runs_of_fst ?_, eq_ok_of_toOption ?_⟩, ⟨_, runs_of_fst ?_, ?_⟩⟩
  · decide +kernel
  · decide +kernel
  · decide +kernel
  · decide +kernel

end Lineage.Sample
