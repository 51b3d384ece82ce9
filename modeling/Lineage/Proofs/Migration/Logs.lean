import Lineage.Proofs.Disk.Files
import Lineage.Proofs.Recovery

/-!
# Text logs on a disk

`Disk.logPaths` are the text logs that a directory holds, in the order of their names. When the first
of them is removed, the others are left (`Disk.Loses.logPaths`). What logs tell of (`TextLog.tell`)
depends on what those before them said last (`TextLog.carry`); whether they can be read does not
(`TextLog.readable_iff`).
-/

namespace Lineage

/-! ## Names in directories -/

namespace Disk

variable {d d' : Disk} {p dir : Path} {q : Place} {names : List String} {n : String} {id : FileId}

/-- The name of what is at a place, if it is right inside another place. -/
def nameUnder? (q k : Place) : Option String :=
  if k ≠ [] ∧ k.dropLast = q then k.getLast? else none

/-- The names of what is right inside a place. -/
def namesAt (d : Disk) (q : Place) : List String := d.nodes.keys.filterMap (nameUnder? q)

theorem nameUnder?_eq_some {k : Place} : nameUnder? q k = some n ↔ k = q ++ [n] := by
  rw [nameUnder?]
  constructor
  · intro h
    split at h
    · rename_i hk
      obtain ⟨ys, rfl⟩ := List.getLast?_eq_some_iff.mp h
      rw [← hk.2, List.dropLast_concat]
    · cases h
  · rintro rfl
    rw [if_pos ⟨List.append_ne_nil_of_right_ne_nil _ (List.cons_ne_nil _ _), List.dropLast_concat⟩,
      List.getLast?_concat]

theorem namesIn_eq_ok :
    d.namesIn p = .ok names ↔ d.at? p = some .directory ∧ names = d.namesAt p.spot := by
  rw [namesIn, except_bind_eq_ok, at?_eq_some]
  constructor
  · rintro ⟨spot, hspot, h⟩
    have hs := place_eq_spot hspot
    subst hs
    cases hnode : d.node? p.spot with
    | none =>
      rw [hnode] at h
      cases h
    | some n =>
      rw [hnode] at h
      cases n with
      | directory => exact ⟨⟨hspot, rfl⟩, (Except.ok.inj h).symm⟩
      | file id => cases h
  · rintro ⟨⟨hspot, hnode⟩, rfl⟩
    refine ⟨p.spot, hspot, ?_⟩
    rw [hnode]
    rfl

theorem keys_erase {nodes : Std.ExtTreeMap Place Node} :
    (nodes.erase q).keys = nodes.keys.filter (· ≠ q) := by
  have hr := (Std.ExtTreeMap.ordered_keys (t := nodes)).filter (· ≠ q)
  refine Tracker.eq_of_ascending (fun q => q) Std.ExtTreeMap.ordered_keys hr fun k => ?_
  rw [Std.ExtTreeMap.mem_keys, Std.ExtTreeMap.mem_erase, List.mem_filter,
    Std.ExtTreeMap.mem_keys, ne_eq, Std.compare_eq_iff_eq, decide_eq_true_eq, and_comm, eq_comm]

theorem filterMap_nameUnder? {l : List Place} : (l.filter (· ≠ q ++ [n])).filterMap (nameUnder? q) =
    (l.filterMap (nameUnder? q)).filter (· ≠ n) := by
  induction l with
  | nil => rfl
  | cons k l ih =>
    by_cases hk : k = q ++ [n]
    · rw [List.filter_cons_of_neg (by simpa using hk), List.filterMap_cons_some
        (nameUnder?_eq_some.mpr hk), List.filter_cons_of_neg (by simp), ih]
    · rw [List.filter_cons_of_pos (by simpa using hk)]
      cases hm : nameUnder? q k with
      | none => rw [List.filterMap_cons_none hm, List.filterMap_cons_none hm, ih]
      | some m =>
        have hmn : m ≠ n := by
          rintro rfl
          exact hk (nameUnder?_eq_some.mp hm)
        rw [List.filterMap_cons_some hm, List.filterMap_cons_some hm,
          List.filter_cons_of_pos (by simpa using hmn), ih]

/-- What is taken away from a place is no longer among the names there. -/
theorem namesAt_erase (h : d'.nodes = d.nodes.erase (q ++ [n])) :
    d'.namesAt q = (d.namesAt q).filter (· ≠ n) := by
  rw [namesAt, h, keys_erase, filterMap_nameUnder?]
  rfl

theorem nodup_namesAt : (d.namesAt q).Nodup := by
  refine List.Pairwise.filterMap _ (fun k k' hne n hn n' hn' => ?_) Std.ExtTreeMap.distinct_keys
  rintro rfl
  rw [nameUnder?_eq_some] at hn hn'
  exact hne (Std.compare_eq_iff_eq.mpr (hn.trans hn'.symm))

/-! ## Logs -/

/-- The text logs in a directory, in the order of their names. -/
def logPaths (d : Disk) (dir : Path) : List Path :=
  match d.namesIn dir with
  | .ok names => ((names.filter Tracker.isLogName).map dir.join).filter d.isFile
  | .error _ => []

/-- Whether a name in a directory is that of a text log. -/
def isLog (d : Disk) (dir : Path) (n : String) : Bool :=
  Tracker.isLogName n && d.isFile (dir.join n)

theorem logPaths_of_ok (h : d.namesIn dir = .ok names) :
    d.logPaths dir = (names.filter (d.isLog dir)).map dir.join := by
  rw [logPaths, h]
  dsimp only
  rw [List.filter_map, List.filter_filter]
  exact congrArg (List.map dir.join) (List.filter_congr fun n _ => Bool.and_comm _ _)

theorem isEntry_of_isLogName (h : Tracker.isLogName n = true) (hn : Unslashed n) :
    Path.IsEntry n := by
  refine ⟨hn, ?_, ?_, ?_⟩
  · rintro rfl
    exact absurd h (by decide)
  · rintro rfl
    exact absurd h (by decide)
  · rintro rfl
    exact absurd h (by decide)

theorem namesIn_of_nodes (h : d'.nodes = d.nodes) :
    d'.namesIn dir = .ok names ↔ d.namesIn dir = .ok names := by
  rw [namesIn_eq_ok, namesIn_eq_ok, at?_of_nodes h, namesAt, namesAt, h]

theorem logPaths_of_nodes (h : d'.nodes = d.nodes) : d'.logPaths dir = d.logPaths dir := by
  cases hd : d.namesIn dir with
  | ok names =>
    rw [logPaths_of_ok hd, logPaths_of_ok ((namesIn_of_nodes h).mpr hd)]
    refine congrArg (List.map dir.join) (List.filter_congr fun n _ => ?_)
    rw [isLog, isLog, isFile_eq (at?_of_nodes h)]
  | error e =>
    cases hd' : d'.namesIn dir with
    | ok names =>
      rw [(namesIn_of_nodes h).mp hd'] at hd
      cases hd
    | error e' => rw [logPaths, logPaths, hd, hd']

/-- The names in a directory are such as files have. -/
def Named (d : Disk) (dir : Path) : Prop :=
  ∀ names, d.namesIn dir = .ok names → ∀ n ∈ names, Unslashed n

/-- A log is a file in the directory. -/
theorem exists_of_mem_logPaths (hn : d.Named dir) (h : p ∈ d.logPaths dir) :
    ∃ n id, p.spot = dir.spot ++ [n] ∧ d.at? p = some (.file id) := by
  cases hd : d.namesIn dir with
  | error e =>
    rw [logPaths, hd] at h
    exact absurd h List.not_mem_nil
  | ok names =>
    rw [logPaths_of_ok hd] at h
    obtain ⟨n, hmem, rfl⟩ := List.mem_map.mp h
    obtain ⟨hmem, hlog⟩ := List.mem_filter.mp hmem
    rw [isLog, Bool.and_eq_true] at hlog
    obtain ⟨id, hid⟩ := isFile_iff.mp hlog.2
    exact ⟨n, id, Path.spot_join (isEntry_of_isLogName hlog.1 (hn names hd n hmem)), hid⟩

/-- The disk where a file's name is gone. -/
structure Loses (p : Path) (d d' : Disk) : Prop where
  file : ∃ id, d.at? p = some (.file id)
  nodes : d'.nodes = d.nodes.erase p.spot

theorem Loses.node? (h : Loses p d d') : d'.node? q = if p.spot = q then none else d.node? q := by
  obtain ⟨id, hid⟩ := h.file
  have hne : p.spot ≠ [] := ne_nil_of_node?_ne_directory (d := d) (by
    rw [(at?_eq_some.mp hid).2]
    exact nofun)
  rw [node?_of_nodes (d := { d with nodes := d.nodes.erase p.spot }) h.nodes, node?_erase hne]

theorem Loses.at?_eq {p' : Path} (h : Loses p d d') (hp : p'.spot ≠ p.spot) :
    d'.at? p' = d.at? p' := by
  obtain ⟨id, hid⟩ := h.file
  refine at?_congr (fun q => ?_) ?_
  · rw [h.node?]
    split
    · rename_i hq
      rw [← hq, (at?_eq_some.mp hid).2]
      exact ⟨nofun, nofun⟩
    · exact Iff.rfl
  · rw [h.node?, if_neg (Ne.symm hp)]

/-- Once the first log is removed, the others are left. -/
theorem Loses.logPaths {rest : List Path} (h : Loses p d d') (hn : d.Named dir)
    (hp : d.logPaths dir = p :: rest) : d'.logPaths dir = rest ∧ d'.Named dir := by
  cases hd : d.namesIn dir with
  | error e =>
    rw [Disk.logPaths, hd] at hp
    cases hp
  | ok names =>
    rw [logPaths_of_ok hd] at hp
    obtain ⟨n, ms, hfilter, rfl, rfl⟩ := List.map_eq_cons_iff.mp hp
    obtain ⟨hmem, hlog⟩ := List.mem_filter.mp (hfilter ▸ List.mem_cons_self (a := n) (l := ms))
    have hentry {m : String} (hm : m ∈ names) (hlog : Tracker.isLogName m = true) :
        (dir.join m).spot = dir.spot ++ [m] :=
      Path.spot_join (isEntry_of_isLogName hlog (hn names hd m hm))
    have hspot := hentry hmem (Bool.and_eq_true_iff.mp hlog).1
    obtain ⟨hat, rfl⟩ := namesIn_eq_ok.mp hd
    have hnames : d'.namesIn dir = .ok ((d.namesAt dir.spot).filter (· ≠ n)) := by
      refine namesIn_eq_ok.mpr ⟨(h.at?_eq ?_).trans hat, (namesAt_erase (hspot ▸ h.nodes)).symm⟩
      rw [hspot]
      exact fun he => List.cons_ne_nil n [] (List.append_right_eq_self.mp he.symm)
    have hsame : ∀ m ∈ (d.namesAt dir.spot).filter (· ≠ n), d'.isLog dir m = d.isLog dir m := by
      intro m hm
      obtain ⟨hm, hmn⟩ := List.mem_filter.mp hm
      rw [isLog, isLog]
      cases hlogm : Tracker.isLogName m with
      | false => rfl
      | true =>
        rw [isFile_eq (h.at?_eq ?_)]
        rw [hentry hm hlogm, hspot]
        exact fun he => of_decide_eq_true hmn (List.append_singleton_inj.mp he).2
    have hleft : ((d.namesAt dir.spot).filter (· ≠ n)).filter (d.isLog dir) = ms := by
      have hnodup : (n :: ms).Nodup := hfilter ▸ nodup_namesAt.filter (d.isLog dir)
      have hcomm : ((d.namesAt dir.spot).filter (· ≠ n)).filter (d.isLog dir) =
          ((d.namesAt dir.spot).filter (d.isLog dir)).filter (· ≠ n) := by
        rw [List.filter_filter, List.filter_filter]
        exact List.filter_congr fun m _ => Bool.and_comm _ _
      rw [hcomm, hfilter, List.filter_cons_of_neg (by simp), List.filter_eq_self]
      intro m hm
      rw [decide_eq_true_eq]
      rintro rfl
      exact (List.nodup_cons.mp hnodup).1 hm
    refine ⟨?_, fun names hd' m hm => ?_⟩
    · rw [logPaths_of_ok hnames, List.filter_congr hsame, hleft]
    · cases hnames.symm.trans hd'
      exact hn _ hd m (List.mem_filter.mp hm).1

/-- The bytes of the file that a path leads to, none if it leads to no file. -/
def bytes (d : Disk) (p : Path) : Bytes := (d.bytesAt p).toOption.getD []

theorem bytes_of_file (h : d.at? p = some (.file id)) : d.bytes p = d.content id := by
  rw [bytes, bytesAt_eq h]
  rfl

end Disk

/-! ## What logs tell -/

namespace TextLog

/-- A log as it is found: where it is and the bytes it holds. -/
structure File where
  path : Path
  bytes : Bytes
  deriving DecidableEq

variable {r r' : Replay} {f : File} {fs gs : List File}

/-- The compactions that logs tell of one after the other, up to the first that cannot be read. -/
def tell (r : Replay) : List File → List Compaction
  | [] => []
  | f :: fs =>
    match r.run f.bytes with
    | (.ok told, r') => told ++ tell r' fs
    | (.error _, _) => []

/-- What later logs take from the given ones. -/
def carry (r : Replay) (fs : List File) : Replay := fs.foldl (fun r f => (r.run f.bytes).2) r

/-- A log can be read to its end. -/
def Readable (f : File) : Prop := ∃ told, (Replay.run {} f.bytes).1 = .ok told

theorem tell_cons_ok {told : List Compaction} (h : (r.run f.bytes).1 = .ok told) :
    tell r (f :: fs) = told ++ tell (r.run f.bytes).2 fs := by
  rw [tell]
  cases hrun : r.run f.bytes with
  | mk x r' =>
    rw [hrun] at h
    cases h
    rfl

theorem tell_cons_error {e : Error} (h : (r.run f.bytes).1 = .error e) :
    tell r (f :: fs) = [] := by
  rw [tell]
  cases hrun : r.run f.bytes with
  | mk x r' =>
    rw [hrun] at h
    cases h
    rfl

theorem exists_runLines_cons {l : Bytes} {ls : List Bytes} :
    (∃ told, (r.runLines (l :: ls)).1 = .ok told) ↔ ∃ s line, Utf8.decode l = .ok s ∧
      parse s = .ok line ∧ ∃ told, ((r.take line).2.runLines ls).1 = .ok told := by
  rw [Replay.runLines]
  cases Utf8.decode l with
  | error e =>
    constructor
    · rintro ⟨_, h⟩
      cases h
    · rintro ⟨_, _, h, -⟩
      cases h
  | ok s =>
    dsimp only
    rw [Replay.apply]
    cases hparse : parse s with
    | error e =>
      constructor
      · rintro ⟨_, h⟩
        cases h
      · rintro ⟨_, _, h, h', -⟩
        cases h
        cases hparse.symm.trans h'
    | ok line =>
      have hmap {x : Except Error (List Compaction)} {cs : List Compaction} :
          (∃ told, x.map (cs ++ ·) = .ok told) ↔ ∃ told, x = .ok told := by
        cases x with
        | error e =>
          constructor
          · rintro ⟨_, h⟩
            cases h
          · rintro ⟨_, h⟩
            cases h
        | ok ds =>
          constructor
          · exact fun _ => ⟨ds, rfl⟩
          · exact fun _ => ⟨cs ++ ds, rfl⟩
      constructor
      · intro h
        exact ⟨s, line, rfl, hparse, hmap.mp h⟩
      · rintro ⟨_, _, h, h', hrest⟩
        cases h
        cases hparse.symm.trans h'
        exact hmap.mpr hrest

/-- Whether a log can be read does not depend on the logs before it. -/
theorem readable_iff (r : Replay) : Readable f ↔ ∃ told, (r.run f.bytes).1 = .ok told := by
  have hany {ls : List Bytes} {r r' : Replay} (h : ∃ told, (r.runLines ls).1 = .ok told) :
      ∃ told, (r'.runLines ls).1 = .ok told := by
    induction ls generalizing r r' with
    | nil => exact ⟨[], rfl⟩
    | cons l ls ih =>
      obtain ⟨s, line, hs, hline, hrest⟩ := exists_runLines_cons.mp h
      exact exists_runLines_cons.mpr ⟨s, line, hs, hline, ih hrest⟩
  exact ⟨hany, hany⟩

theorem tell_append (h : ∀ f ∈ fs, Readable f) :
    tell r (fs ++ gs) = tell r fs ++ tell (carry r fs) gs := by
  induction fs generalizing r with
  | nil => rfl
  | cons f fs ih =>
    rw [List.forall_mem_cons] at h
    obtain ⟨told, htold⟩ := (readable_iff r).mp h.1
    rw [List.cons_append, tell_cons_ok htold, tell_cons_ok htold, ih h.2, List.append_assoc]
    rfl

/-- A log file is read once, and what is read is replayed. -/
theorem Replay.runs_runFile_iff {ε : Type} {d d' : Disk} {p : Path} {r : Replay}
    {x : Except ε (Except Error (List Compaction) × Replay)} :
    Runs (ExceptT.lift (r.runFile p)) d x d' ↔ ∃ res, Runs (Disk.readAll p) d res d' ∧
      x = .ok (match res with
        | .error e => (.error (.io e), r)
        | .ok b => r.run b) := by
  have hlift : (ExceptT.lift (ε := ε) (r.runFile p)).run.run d =
      (Except.ok ((r.runFile p).run d).1, ((r.runFile p).run d).2) := rfl
  have hfile : (r.runFile p).run d = match (Disk.readAll p).run.run d with
      | (.error e, d') => ((.error (.io e), r), d')
      | (.ok b, d') => (r.run b, d') := by
    change ((Disk.readAll p).run >>= _).run d = _
    rw [StateT.run_bind]
    generalize (Disk.readAll p).run.run d = y
    obtain ⟨_ | _, _⟩ := y <;> rfl
  simp only [Runs, hlift, hfile]
  generalize (Disk.readAll p).run.run d = y
  obtain ⟨res, d₁⟩ := y
  constructor
  · intro h
    cases res <;> cases h <;> exact ⟨_, rfl, rfl⟩
  · rintro ⟨_, ⟨⟩, rfl⟩
    cases res <;> rfl

/-- A log file that is there is replayed, or reading it is refused. -/
theorem Replay.runs_runFile {ε : Type} {d d' : Disk} {p : Path} {id : FileId} {r : Replay}
    {x : Except ε (Except Error (List Compaction) × Replay)}
    (hp : d.at? p = some (.file id)) (h : Runs (ExceptT.lift (r.runFile p)) d x d') :
    d' = { d with outage := d.outage.later } ∧
      ((∃ e, x = .ok (.error (.io e), r)) ∨ x = .ok (r.run (d.bytes p))) := by
  obtain ⟨res, hread, rfl⟩ := runs_runFile_iff.mp h
  obtain ⟨rfl, hres⟩ := Disk.runs_query.mp hread
  refine ⟨rfl, ?_⟩
  have hbytes : Disk.bytesAt { d with outage := d.outage.later } p = .ok (d.bytes p) := by
    rw [Disk.bytesAt_eq (Disk.Within.at?_later.trans hp), Disk.bytes_of_file hp]
    rfl
  cases res with
  | error e => exact .inl ⟨e, rfl⟩
  | ok b =>
    rw [hbytes] at hres
    split at hres
    · cases hres
    · cases hres
      exact .inr rfl

end TextLog

end Lineage
