import Lineage.Proofs.Stripping.Copies

/-!
# Stripping the inputs of a compaction

`Copying P` says what a run may do that strips backups of files of which `P` holds: each of them is
as it was or is the whole stripped copy of that, and nothing else changed but the scratch file and
the bytes of the history's file. Runs of this kind compose (`Copying.trans`), because a stripped
copy is stripped to itself.
-/

namespace Lineage

namespace Tracker

open World (onDisk onHost update)

variable {w w' w₁ w₂ : World} {m n : String} {b b' : Bytes} {P Q : String → Prop}

/-! ## Copies -/

/-- The backup of a file is its stripped copy by now. -/
def Replaced (w w' : World) (n : String) : Prop :=
  ∃ b, StripsTo w n b ∧ w'.disk.bytesAt (w.tracker.backupPath n) = .ok b

/-- Backups were replaced by their stripped copies, if at all, and only those of some files. -/
structure Copying (P : String → Prop) (w w' : World) : Prop where
  tracker : w'.tracker.uncounted = w.tracker.uncounted
  snapshots : w'.host.snapshots = w.host.snapshots
  file : w'.host.history.file? = w.host.history.file?
  disk : Disk.Supplants w.tracker.scratchPath.spot
    (fun q => q = w.tracker.scratchPath.spot ∨ ∃ n, P n ∧ q = (w.tracker.backupPath n).spot)
    (w.host.history.file? = some ·) w.disk w'.disk
  copies : ∀ n, w'.disk.at? (w.tracker.backupPath n) = w.disk.at? (w.tracker.backupPath n) ∨
    (∃ m, P m ∧ (w.tracker.backupPath n).spot = (w.tracker.backupPath m).spot) ∧ Replaced w w' n

theorem StripsTo.unique (h : StripsTo w n b) (h' : StripsTo w n b') : b = b' := by
  obtain ⟨r, s, hreads, hs⟩ := h
  obtain ⟨r', s', hreads', hs'⟩ := h'
  cases hreads.unique hreads'
  cases hs.symm.trans hs'
  rfl

theorem backed_of_stripsTo (h : StripsTo w n b) : Backed w n := by
  obtain ⟨r, s, ⟨id, hat, -⟩, -⟩ := h
  rw [Backed, hat]
  rfl

theorem stripsTo_congr (h : w.disk.at? (w.tracker.backupPath m) =
    w.disk.at? (w.tracker.backupPath n)) : StripsTo w m b ↔ StripsTo w n b := by
  simp only [StripsTo, Disk.Reads, h]

theorem Orderly.not_file {id : FileId} (ho : Orderly w)
    (hat : w.disk.at? (w.tracker.backupPath n) = some (.file id)) :
    ¬ w.host.history.file? = some id :=
  fun hfile => (ho.file id hfile).2 _ (.inr ⟨n, rfl⟩) (Disk.at?_eq_some.mp hat).2

namespace Copying

theorem backupPath (h : Copying P w w') : w'.tracker.backupPath n = w.tracker.backupPath n :=
  congrArg (fun t => t.backupPath n) h.tracker

theorem scratchPath (h : Copying P w w') : w'.tracker.scratchPath = w.tracker.scratchPath := by
  have hpath := congrArg Tracker.scratchPath h.tracker
  exact hpath

theorem backupDir (h : Copying P w w') : w'.tracker.backupDir = w.tracker.backupDir :=
  backupDir_of_uncounted h.tracker

theorem options (h : Copying P w w') : w'.tracker.options = w.tracker.options := by
  have hoptions := congrArg Tracker.options h.tracker
  exact hoptions

theorem active (h : Copying P w w') : w'.tracker.active = w.tracker.active := by
  have hactive := congrArg Tracker.active h.tracker
  exact hactive

theorem attached (h : Copying P w w') : w'.tracker.attached = w.tracker.attached := by
  have hattached := congrArg Tracker.attached h.tracker
  exact hattached

/-- What is no business of the disk's changes no backup. -/
theorem of_disk (ht : w'.tracker.uncounted = w.tracker.uncounted)
    (hs : w'.host.snapshots = w.host.snapshots)
    (hf : w'.host.history.file? = w.host.history.file?) (hd : w'.disk = w.disk) :
    Copying P w w' where
  tracker := ht
  snapshots := hs
  file := hf
  disk := hd ▸ Frame.refl _
  copies n := .inl (by rw [hd])

protected theorem refl : Copying P w w := .of_disk rfl rfl rfl rfl

theorem later : Copying P w w.later := .of_disk rfl rfl rfl rfl

theorem orderly (h : Copying P w w') (ho : Orderly w) : Orderly w' where
  disk := by
    rw [h.scratchPath]
    exact h.disk.orderly ho.disk
  file id hid := by
    rw [h.file] at hid
    obtain ⟨hused, hnot⟩ := ho.file id hid
    refine ⟨Nat.lt_of_lt_of_le hused h.disk.unused, fun q hq hnode => ?_⟩
    have hq' : w.tracker.MayFill q := by
      simpa only [MayFill, h.scratchPath, h.backupPath] using hq
    rcases h.disk.moved q id hnode with hnode | hnode | hnew
    · exact hnot q hq' hnode
    · exact hnot _ (.inl rfl) hnode
    · exact absurd hused (Nat.not_lt.mpr hnew)

/-- A backup that is the same file has the same bytes. -/
theorem bytes (h : Copying P w w') (ho : Orderly w)
    (hsame : w'.disk.at? (w.tracker.backupPath n) = w.disk.at? (w.tracker.backupPath n)) :
    w'.disk.bytesAt (w.tracker.backupPath n) = .ok b ↔
      w.disk.bytesAt (w.tracker.backupPath n) = .ok b := by
  rw [Disk.bytesAt_eq_ok, Disk.bytesAt_eq_ok, hsame]
  refine exists_congr fun id => and_congr_right fun hat => ?_
  rw [h.disk.content_eq ho.disk spot_backupPath_ne (ho.not_file hat)
    (Disk.at?_eq_some.mp hat).2]

theorem rooted (h : Copying P w w') (hw : Rooted w) : Rooted w' := by
  obtain ⟨m, hm, hd⟩ := hw
  rw [Rooted, h.backupDir]
  exact ⟨m, Disk.walk_mono (fun q => h.disk.directory.mpr) hm, h.disk.directory.mpr hd⟩

theorem backed (h : Copying P w w') : Backed w' n ↔ Backed w n := by
  rw [Backed, h.backupPath]
  rcases h.copies n with hsame | ⟨-, b, hs, hb⟩
  · rw [hsame]
    exact Iff.rfl
  · obtain ⟨id, hat, -⟩ := Disk.bytesAt_eq_ok.mp hb
    rw [hat]
    exact iff_of_true rfl (backed_of_stripsTo hs)

/-- A stripped copy is stripped to what its source is. -/
theorem stripsTo (h : Copying P w w') (ho : Orderly w) :
    StripsTo w' n b ↔ StripsTo w n b := by
  rw [StripsTo, StripsTo, h.backupPath, h.options]
  rcases h.copies n with hsame | ⟨-, b₀, ⟨r₀, s₀, hreads₀, hstrip₀⟩, hb₀⟩
  · refine exists₂_congr fun r s => and_congr_left fun _ => ?_
    rw [Disk.reads_iff, Disk.reads_iff]
    exact exists_congr fun b => and_congr_left fun _ => h.bytes ho hsame
  obtain ⟨r', hopen', -, -, hagain⟩ := SortedTable.strip_strip hstrip₀
  have hreads' := Disk.reads_iff.mpr ⟨b₀, hb₀, hopen'⟩
  constructor
  · rintro ⟨r, s, hreads, hstrip⟩
    cases hreads.unique hreads'
    cases hstrip.symm.trans hagain
    exact ⟨r₀, s₀, hreads₀, hstrip₀⟩
  · rintro ⟨r, s, hreads, hstrip⟩
    cases hreads.unique hreads₀
    cases hstrip.symm.trans hstrip₀
    exact ⟨r', _, hreads', hagain⟩

theorem replaced (h : Copying P w w₁) (ho : Orderly w) (hr : Replaced w₁ w₂ n) :
    Replaced w w₂ n := by
  obtain ⟨b, hs, hb⟩ := hr
  exact ⟨b, (h.stripsTo ho).mp hs, h.backupPath ▸ hb⟩

/-- A backup that is stripped stays so. -/
theorem still_replaced (h : Copying P w w₁) (h' : Copying Q w₁ w₂) (ho : Orderly w)
    (hr : Replaced w w₁ n) : Replaced w w₂ n := by
  obtain ⟨b, hs, hb⟩ := hr
  rcases h'.copies n with hsame | ⟨-, hr'⟩
  · refine ⟨b, hs, ?_⟩
    rw [← h.backupPath] at hb ⊢
    exact (h'.bytes (h.orderly ho) hsame).mpr hb
  · exact h.replaced ho hr'

theorem trans (h : Copying P w w₁) (h' : Copying P w₁ w₂) (ho : Orderly w) : Copying P w w₂ where
  tracker := h'.tracker.trans h.tracker
  snapshots := h'.snapshots.trans h.snapshots
  file := h'.file.trans h.file
  disk := by
    have hdisk := h'.disk
    simp only [h.scratchPath, h.backupPath, h.file] at hdisk
    exact Frame.trans h.disk hdisk
  copies n := by
    have hcopies := h'.copies n
    simp only [h.backupPath] at hcopies
    rcases hcopies with hsame | ⟨hP, hr⟩
    · rcases h.copies n with hsame' | ⟨hP, hr⟩
      · exact .inl (hsame.trans hsame')
      · exact .inr ⟨hP, h.still_replaced h' ho hr⟩
    · exact .inr ⟨hP, h.replaced ho hr⟩

theorem admits (h : Copying P w w') : Admits w' n ↔ Admits w n := by
  constructor
  · rintro ⟨htakes, hhoused⟩
    rw [h.scratchPath] at htakes
    rw [h.backupPath] at hhoused
    exact ⟨htakes.of_directories fun q => h.disk.directory.symm,
      fun dir hp => Disk.isDirectory_mono (fun q => h.disk.directory.mp) (hhoused dir hp)⟩
  · rintro ⟨htakes, hhoused⟩
    rw [← h.scratchPath] at htakes
    rw [← h.backupPath] at hhoused
    exact ⟨htakes.of_directories fun q => h.disk.directory,
      fun dir hp => Disk.isDirectory_mono (fun q => h.disk.directory.mpr) (hhoused dir hp)⟩

end Copying

/-! ## Steps -/

/-- The backups at the place of the one that was stripped are this one, if they are there. -/
theorem Restrips.copying (h : Restrips n w w') (hb : Backed w n) (hP : P n) : Copying P w w' where
  tracker := congrArg (fun r => r.1.uncounted) h.rest
  snapshots := congrArg (fun r => r.2.2) h.rest
  file := congrArg (fun r => r.2.1.file?) h.rest
  disk := (h.disk.mono fun q => Or.imp_right fun hq => ⟨n, hP, hq⟩).writing fun _ => False.elim
  copies m := by
    by_cases hs : (w.tracker.backupPath m).spot = (w.tracker.backupPath n).spot
    swap
    · exact .inl (h.disk.at?_eq (not_or.mpr ⟨spot_backupPath_ne, hs⟩))
    have hdir : ∀ q, w.disk.node? q = some .directory → w'.disk.node? q = some .directory :=
      fun q => h.disk.directory.mpr
    cases hm : w.disk.at? (w.tracker.backupPath m) with
    | none => exact .inl (Disk.at?_eq_none (fun q => h.disk.directory.mp) hm hb hs)
    | some k =>
      have hb' : Backed w m := by rw [Backed, hm, Option.isSome_some]
      have hbefore := Disk.at?_eq_of_spot (fun q hq => hq) hb' hb hs
      have hafter := Disk.at?_eq_of_spot hdir hb' hb hs
      rw [← hm]
      rcases h.copy with hc | ⟨b, hst, hbytes⟩
      · rw [hafter, hc, hbefore]
        exact .inl rfl
      · refine .inr ⟨⟨n, hP, hs⟩, b, (stripsTo_congr hbefore).mpr hst, ?_⟩
        rwa [Disk.bytesAt_congr hafter]

/-! ## Inputs -/

/-- What is recorded of a file once its backup is stripped, if it has one. -/
def marked (w : World) (i : FileInfo) : FileInfo :=
  { i with stripped := i.stripped || w.disk.present (w.tracker.backupPath i.name) }

theorem marked_of_stripped {i : FileInfo} (h : i.stripped = true) : marked w i = i := by
  rw [marked, h, Bool.true_or, ← h]

theorem marked_of_backed {i : FileInfo} (h : Backed w i.name) :
    marked w i = { i with stripped := true } := by
  rw [marked, Disk.present_eq, show (w.disk.at? _).isSome = true from h, Bool.or_true]

theorem marked_of_not_backed {i : FileInfo} (h : ¬ Backed w i.name) : marked w i = i := by
  rw [marked, Disk.present_eq, Bool.eq_false_iff.mpr h, Bool.or_false]

theorem Copying.marked {i : FileInfo} (h : Copying P w w') : marked w' i = marked w i := by
  have hiff : Backed w' i.name ↔ Backed w i.name := h.backed
  by_cases hb : Backed w i.name
  · rw [marked_of_backed hb, marked_of_backed (hiff.mpr hb)]
  · rw [marked_of_not_backed hb, marked_of_not_backed fun hb' => hb (hiff.mp hb')]

/-- An input that is treated is marked, and stripped if that was due. -/
theorem copying_of_treated {i i' : FileInfo} (h : Treated i w i' w') (ho : Orderly w)
    (hP : i.stripped = false → Backed w i.name → Rooted w ∧ P i.name) :
    Copying P w w' ∧ i' = marked w i ∧
      (i.stripped = false → Backed w i.name → Admits w i.name ∧ Replaced w w' i.name) := by
  cases h with
  | before stripped =>
    exact ⟨.refl, (marked_of_stripped stripped).symm, fun due => nomatch stripped.symm.trans due⟩
  | copied due backed ran =>
    obtain ⟨hroot, hPi⟩ := hP due backed
    obtain ⟨hrestrips, hok⟩ := restrips_stripBackup ho hroot ran
    exact ⟨(hrestrips.copying backed hPi).trans (.of_disk rfl rfl rfl rfl) ho,
      (marked_of_backed backed).symm, fun _ _ => hok _ rfl⟩
  | skipped due bare =>
    exact ⟨.of_disk rfl rfl rfl rfl, (marked_of_not_backed bare).symm,
      fun _ backed => absurd backed bare⟩

/-- However the stripping of inputs ends, only backups of those that were not stripped were copied.
If it goes through, all of these were that there are, and the inputs are marked. -/
theorem copying_stripInputs {run : StripRun} {is : List FileInfo}
    {r : Except UpkeepError (List FileInfo × StripRun)} (ho : Orderly w)
    (hP : ∀ i ∈ is, i.stripped = false → Backed w i.name → Rooted w ∧ P i.name)
    (h : Runs (stripInputs run is) w r w') : Copying P w w' ∧
      ∀ is' run', r = .ok (is', run') → is' = is.map (marked w) ∧
        run'.compactions = run.compactions ∧ ∀ i ∈ is, i.stripped = false → Backed w i.name →
          Admits w i.name ∧ Replaced w w' i.name := by
  induction is generalizing w run r with
  | nil =>
    obtain ⟨rfl, rfl⟩ := runs_pure.mp h
    refine ⟨.refl, fun is' run' hr => ?_⟩
    cases hr
    exact ⟨rfl, rfl, fun i hi => absurd hi List.not_mem_nil⟩
  | cons i rest ih =>
    rw [List.forall_mem_cons] at hP
    rcases stripInputs_steps h with
      ⟨i', w₁, run₁, r₁, hfirst, hrun, hrest, rfl⟩ | ⟨due, backed, e, hstrip, rfl⟩
    · obtain ⟨hc, hi, hdue⟩ := copying_of_treated hfirst ho hP.1
      have hP₁ : ∀ j ∈ rest, j.stripped = false → Backed w₁ j.name → Rooted w₁ ∧ P j.name :=
        fun j hj hs hb => (hP.2 j hj hs (hc.backed.mp hb)).imp_left hc.rooted
      obtain ⟨hc', hok⟩ := ih (hc.orderly ho) hP₁ hrest
      refine ⟨hc.trans hc' ho, fun is' run' hr => ?_⟩
      cases r₁ with
      | error e => cases hr
      | ok x =>
        cases hr
        obtain ⟨hmore, hrun', hall⟩ := hok x.1 x.2 rfl
        refine ⟨?_, hrun'.trans hrun, fun j hj hs hb => ?_⟩
        · rw [hmore, List.map_cons, hi]
          exact congrArg _ (List.map_congr_left fun j _ => hc.marked)
        · rcases List.mem_cons.mp hj with rfl | hj
          · obtain ⟨ha, hr⟩ := hdue hs hb
            exact ⟨ha, hc.still_replaced hc' ho hr⟩
          · obtain ⟨ha, hr⟩ := hall j hj hs (hc.backed.mpr hb)
            exact ⟨hc.admits.mp ha, hc.replaced ho hr⟩
    · obtain ⟨hroot, hPi⟩ := hP.1 due backed
      obtain ⟨hrestrips, -⟩ := restrips_stripBackup ho hroot hstrip
      exact ⟨hrestrips.copying backed hPi, fun is' run' hr => by cases hr⟩

/-! ## Rows -/

theorem supplants_put {s : Place} {places : Place → Prop} {t : Table} {key value : Bytes} :
    Moves (Disk.Supplants s places (t.file? = some ·)) (t.put key value) := by
  cases t with
  | memory rows => exact moves_pure
  | recorded t =>
    exact moves_map (moves_bind (moves_adapt fun _ _ _ => Disk.supplants_append (.inr rfl))
      fun _ => moves_pure)

/-- Whether a row is put or not, no backup changes. -/
theorem copying_putRow {key value : Bytes} {r : Except UpkeepError Unit}
    (h : Runs (onHost .table (Host.putRow key value)) w r w') : Copying P w w' := by
  have hdisk {r : Except TableError Table} {d : Disk}
      (hput : Runs (w.host.history.put key value) w.disk r d) :
      Disk.Supplants w.tracker.scratchPath.spot (fun _ => False)
        (w.host.history.file? = some ·) w.disk d :=
    supplants_put _ _ _ hput
  obtain ⟨r₀, host, hhost, -, rfl⟩ := World.runs_onHost.mp h
  cases r₀ with
  | ok u =>
    obtain ⟨-, t, d, hput, rfl⟩ := Host.runs_changeHistory_ok.mp hhost
    exact ⟨rfl, rfl, Table.file?_of_put hput, (hdisk hput).mono fun _ => False.elim,
      fun n => .inl ((hdisk hput).at?_eq not_false)⟩
  | error e =>
    rcases Host.runs_changeHistory_error.mp hhost with ⟨f, -, -, rfl⟩ | ⟨-, d, hput, rfl⟩
    · exact .of_disk rfl rfl rfl rfl
    · exact ⟨rfl, rfl, rfl, (hdisk hput).mono fun _ => False.elim,
        fun n => .inl ((hdisk hput).at?_eq not_false)⟩

end Tracker

end Lineage
