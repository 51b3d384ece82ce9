import Mathlib.Logic.Function.Basic
import Lineage.Proofs.RecordFile.Opening

/-!
# A table in a record file is a map

Requests to a table, closing it and opening it anew among them, are answered as by a map from keys
to values: one that is changed by the requests to put and to delete that are made while it is open,
and by no others (`serveAll_refines`). Whatever was asked, the file is one that is replayed to its
end, and comes to that map. A table that is to be opened anew stays closed only where its file is to
be written anew and cannot be, and where the file can, none does.
-/

namespace Lineage.RecordFile

variable {d d' : Disk} {p : Path} {t : RecordFile} {u : Option RecordFile} {rows : Rows} {ratio : Nat}

/-! ## Requests -/

/-- What is asked of a table. -/
inductive Request where
  | put (key value : Bytes)
  | delete (key : Bytes)
  | get (key : Bytes)
  | scan
  | isEmpty
  /-- Closes the table, and opens it anew. -/
  | reopen (ratio : Nat)

inductive Answer where
  | done
  | value (v : Option Bytes)
  | rows (l : List (Bytes × Bytes))
  | empty (b : Bool)
  /-- The table was closed, and not opened anew. -/
  | refused (e : TableError)
  /-- The table is not open. -/
  | closed
  deriving DecidableEq

/-- Does what is asked of the table at a path, if it is open. -/
def serve (p : Path) (u : Option RecordFile) (q : Request) :
    Disk.Action TableError (Answer × Option RecordFile) :=
  match q, u with
  | .reopen ratio, _ =>
    tryCatch ((fun t => (Answer.done, some t)) <$> openAt p ratio)
      fun e => pure (.refused e, none)
  | _, none => pure (.closed, none)
  | .put k v, some t => (fun t' => (Answer.done, some t')) <$> t.put k v
  | .delete k, some t => (fun t' => (Answer.done, some t')) <$> t.delete k
  | .get k, some t => pure (.value t.rows[k]?, some t)
  | .scan, some t => pure (.rows t.rows.toList, some t)
  | .isEmpty, some t => pure (.empty t.rows.isEmpty, some t)

def serveAll (p : Path) (u : Option RecordFile) :
    List Request → Disk.Action TableError (List Answer × Option RecordFile)
  | [] => pure ([], u)
  | q :: qs => do
    let (a, u') ← serve p u q
    let (as, u'') ← serveAll p u' qs
    return (a :: as, u'')

/-! ## Maps -/

/-- A map from keys to values. -/
abbrev View := Bytes → Option Bytes

/-- The map that the rows of a table are. -/
def view (rows : Rows) : View := fun k => rows[k]?

/-- The map after a request. -/
def Request.applyTo (m : View) : Request → View
  | .put k v => Function.update m k (some v)
  | .delete k => Function.update m k none
  | .get _ | .scan | .isEmpty | .reopen _ => m

/-- The answer to a request is the one that a map gives. -/
inductive Answers (m : View) : Request → Answer → Prop where
  | put {k v : Bytes} : Answers m (.put k v) .done
  | delete {k : Bytes} : Answers m (.delete k) .done
  | get {k : Bytes} : Answers m (.get k) (.value (m k))
  | scan {l : List (Bytes × Bytes)} (ascending : l.Pairwise fun a b => compare a.1 b.1 = .lt)
      (rows : ∀ k v : Bytes, (k, v) ∈ l ↔ m k = some v) : Answers m .scan (.rows l)
  | isEmpty {b : Bool} (none : b = true ↔ ∀ k, m k = none) : Answers m .isEmpty (.empty b)
  | reopen {ratio : Nat} : Answers m (.reopen ratio) .done

/-- The answers to requests are those that a map gives, each after the requests before it; in the end
it is another map. -/
inductive AnswersAll : View → List Request → List Answer → View → Prop where
  | nil {m : View} : AnswersAll m [] [] m
  | cons {m m' : View} {q : Request} {qs : List Request} {a : Answer} {as : List Answer}
      (first : Answers m q a) (rest : AnswersAll (q.applyTo m) qs as m') :
      AnswersAll m (q :: qs) (a :: as) m'

/-- The answer to a request of a table that is open or not, and whether it is open then. Opening it
anew is refused only where its file does not `renew`. -/
inductive Served (renew : Prop) (m : View) : Bool → Request → Answer → Bool → Prop where
  | answered {q : Request} {a : Answer} (answer : Answers m q a) : Served renew m true q a true
  | reopened {ratio : Nat} : Served renew m false (.reopen ratio) .done true
  | refused {o : Bool} {ratio : Nat} {e : TableError} (stuck : ¬ renew) :
      Served renew m o (.reopen ratio) (.refused e) false
  | closed {q : Request} (shut : ∀ ratio, q ≠ .reopen ratio) : Served renew m false q .closed false

/-- The answers to requests of a table that is open or not. The map is changed while it is open. -/
inductive ServedAll (renew : Prop) : View → Bool → List Request → List Answer → Bool → View → Prop where
  | nil {m : View} {o : Bool} : ServedAll renew m o [] [] o m
  | cons {m m' : View} {o o' o'' : Bool} {q : Request} {qs : List Request} {a : Answer}
      {as : List Answer} (first : Served renew m o q a o')
      (rest : ServedAll renew (if o then q.applyTo m else m) o' qs as o'' m') :
      ServedAll renew m o (q :: qs) (a :: as) o'' m'

/-- A table whose file can be written anew answers every request as the map. -/
theorem ServedAll.answersAll {renew : Prop} {m m' : View} {qs : List Request} {as : List Answer}
    {o : Bool} (h : ServedAll renew m true qs as o m') (hr : renew) : AnswersAll m qs as m' := by
  induction qs generalizing m as with
  | nil =>
    cases h
    exact .nil
  | cons q qs ih =>
    cases h with
    | cons first rest =>
      cases first with
      | answered answer => exact .cons answer (ih rest)
      | refused stuck => exact absurd hr stuck

/-! ## Service -/

/-- What is put can be written as a record. -/
def Request.Fits : Request → Prop
  | .put k v => (Record.put k v).Fits
  | .delete _ | .get _ | .scan | .isEmpty | .reopen _ => True

instance : DecidablePred Request.Fits
  | .put k v => inferInstanceAs (Decidable (Record.put k v).Fits)
  | .delete _ | .get _ | .scan | .isEmpty | .reopen _ => isTrue trivial

theorem view_insert {rows : Rows} {k v : Bytes} :
    view (rows.insert k v) = Function.update (view rows) k (some v) := by
  funext k'
  rw [Function.update_apply, view, Std.ExtTreeMap.getElem?_insert]
  simp only [Std.compare_eq_iff_eq, eq_comm (a := k)]
  rfl

theorem view_erase {rows : Rows} {k : Bytes} :
    view (rows.erase k) = Function.update (view rows) k none := by
  funext k'
  rw [Function.update_apply, view, Std.ExtTreeMap.getElem?_erase]
  simp only [Std.compare_eq_iff_eq, eq_comm (a := k)]
  rfl

theorem isEmpty_iff_view {rows : Rows} : rows.isEmpty = true ↔ ∀ k, view rows k = none := by
  rw [Std.ExtTreeMap.isEmpty_iff]
  constructor
  · rintro rfl k
    exact Std.ExtTreeMap.getElem?_empty
  · intro h
    refine Std.ExtTreeMap.ext_getElem? fun k => ?_
    rw [Std.ExtTreeMap.getElem?_empty]
    exact h k

/-- A table, be it open or closed, at a path that leads to a file from which its rows are
replayed. -/
inductive Holding (p : Path) (d : Disk) : Option RecordFile → Rows → Prop where
  | opened {t : RecordFile} (path : t.path = p) (table : t.Open d) : Holding p d (some t) t.rows
  | closed {id : FileId} {rows : Rows} (table : Open ⟨p, id, rows⟩ d) : Holding p d none rows

theorem Holding.exists_open (h : Holding p d u rows) : ∃ id, Open ⟨p, id, rows⟩ d := by
  cases h with
  | @opened t path table =>
    subst path
    exact ⟨t.file, table⟩
  | closed table => exact ⟨_, table⟩

/-- An open table does what it is asked and answers as its rows do. -/
theorem Open.serve (h : t.Open d) {q : Request} (hq : q.Fits) (hopen : ∀ ratio, q ≠ .reopen ratio) :
    ∃ a t' d', Runs (RecordFile.serve p (some t) q) d (.ok (a, some t')) d' ∧
      Answers (view t.rows) q a ∧ view t'.rows = q.applyTo (view t.rows) ∧ t'.path = t.path ∧
      t'.Open d' ∧ Disk.Within (fun _ => False) d d' := by
  cases q with
  | put k v =>
    obtain ⟨d', hrun, hopen⟩ := h.put hq
    exact ⟨_, _, d', runs_map_ok.mpr ⟨_, hrun, rfl⟩, .put, view_insert, rfl, hopen,
      moves_change _ _ _ hrun⟩
  | delete k =>
    obtain ⟨d', hrun, hopen⟩ := h.delete k
    exact ⟨_, _, d', runs_map_ok.mpr ⟨_, hrun, rfl⟩, .delete, view_erase, rfl, hopen,
      moves_delete _ _ _ hrun⟩
  | get k => exact ⟨_, t, d, runs_pure.mpr ⟨rfl, rfl⟩, .get, rfl, rfl, h, Frame.refl d⟩
  | scan =>
    refine ⟨_, t, d, runs_pure.mpr ⟨rfl, rfl⟩, .scan ?_ fun k v => ?_, rfl, rfl, h, Frame.refl d⟩
    · exact Std.ExtTreeMap.ordered_keys_toList
    · exact Std.ExtTreeMap.mem_toList_iff_getElem?_eq_some
  | isEmpty =>
    exact ⟨_, t, d, runs_pure.mpr ⟨rfl, rfl⟩, .isEmpty isEmpty_iff_view, rfl, rfl, h, Frame.refl d⟩
  | reopen ratio => exact absurd rfl (hopen ratio)

/-- A table is opened anew with the rows it has, or is closed where its file cannot be written
anew. -/
theorem Holding.reopen (h : Holding p d u rows) (ratio : Nat) :
    ∃ a u' d', Runs (serve p u (.reopen ratio)) d (.ok (a, u')) d' ∧ Holding p d' u' rows ∧
      Served (Renewable d p) (view rows) u.isSome (.reopen ratio) a u'.isSome ∧
      (Renewable d' p ↔ Renewable d p) := by
  obtain ⟨id, ho⟩ := h.exists_open
  obtain ⟨x, d', hrun⟩ := exists_runs (openAt p ratio) d
  have hr : Renewable d' p ↔ Renewable d p :=
    renewable_within (within_of_openAt ho.quiet ho.file hrun)
  have hrefused {e : TableError} (he : Runs (openAt p ratio) d (.error e) d') :
      Runs (serve p u (.reopen ratio)) d (.ok (.refused e, none)) d' :=
    runs_tryCatch.mpr (.inr ⟨e, d', runs_map_error.mpr he, runs_pure.mpr ⟨rfl, rfl⟩⟩)
  have hstuck (hn : ¬ Ready d p ratio) : ¬ Renewable d p := fun hr => hn (hr.ready ratio)
  cases ho.opens hrun with
  | @opened t ready path same table =>
    have hserve : Runs (serve p u (.reopen ratio)) d (.ok (.done, some t)) d' :=
      runs_tryCatch.mpr (.inl ⟨_, runs_map_ok.mpr ⟨t, hrun, rfl⟩, rfl⟩)
    obtain rfl : rows = t.rows := same.symm
    refine ⟨_, _, d', hserve, .opened path table, ?_, hr⟩
    cases u with
    | none => exact .reopened
    | some t => exact .answered .reopen
  | renewed stuck held =>
    obtain ⟨i, hi⟩ := held
    exact ⟨_, none, d', hrefused hrun, .closed hi, .refused (hstuck stuck), hr⟩
  | refused stuck same =>
    subst same
    exact ⟨_, none, d', hrefused hrun, .closed ho, .refused (hstuck stuck), hr⟩

theorem Holding.serve (h : Holding p d u rows) {q : Request} (hq : q.Fits) :
    ∃ a u' rows' d', Runs (RecordFile.serve p u q) d (.ok (a, u')) d' ∧ Holding p d' u' rows' ∧
      Served (Renewable d p) (view rows) u.isSome q a u'.isSome ∧
      view rows' = (if u.isSome then q.applyTo (view rows) else view rows) ∧
      (Renewable d' p ↔ Renewable d p) := by
  by_cases hreopen : ∃ ratio, q = .reopen ratio
  · obtain ⟨ratio, rfl⟩ := hreopen
    obtain ⟨a, u', d', hrun, h', hserved, hr⟩ := h.reopen ratio
    exact ⟨a, u', rows, d', hrun, h', hserved, (ite_self _).symm, hr⟩
  · have hopen : ∀ ratio, q ≠ .reopen ratio := fun ratio hq => hreopen ⟨ratio, hq⟩
    cases h with
    | @opened t path table =>
      obtain ⟨a, t', d', hrun, hanswer, hview, hpath, ho, hw⟩ := table.serve (p := p) hq hopen
      exact ⟨a, some t', t'.rows, d', hrun, .opened (hpath.trans path) ho, .answered hanswer, hview,
        renewable_within hw⟩
    | closed table =>
      refine ⟨.closed, none, rows, d, ?_, .closed table, .closed hopen, rfl, Iff.rfl⟩
      cases q with
      | reopen ratio => exact absurd rfl (hopen ratio)
      | _ => exact runs_pure.mpr ⟨rfl, rfl⟩

theorem Holding.serveAll (h : Holding p d u rows) {qs : List Request} (hqs : ∀ q ∈ qs, q.Fits) :
    ∃ as u' rows' d', Runs (RecordFile.serveAll p u qs) d (.ok (as, u')) d' ∧
      Holding p d' u' rows' ∧
      ServedAll (Renewable d p) (view rows) u.isSome qs as u'.isSome (view rows') := by
  induction qs generalizing u rows d with
  | nil => exact ⟨[], u, rows, d, runs_pure.mpr ⟨rfl, rfl⟩, h, .nil⟩
  | cons q qs ih =>
    rw [List.forall_mem_cons] at hqs
    obtain ⟨a, u₁, rows₁, d₁, hrun, h₁, hserved, hview, hr⟩ := h.serve hqs.1
    obtain ⟨as, u₂, rows₂, d₂, hruns, h₂, hrest⟩ := ih h₁ hqs.2
    rw [hview, propext hr] at hrest
    refine ⟨a :: as, u₂, rows₂, d₂, ?_, h₂, .cons hserved hrest⟩
    exact runs_bind_ok.mpr ⟨_, d₁, hrun, runs_bind_ok.mpr ⟨_, d₂, hruns,
      runs_pure.mpr ⟨rfl, rfl⟩⟩⟩

/-- Whatever bytes a table was opened on: as long as nothing fails and nobody else writes its file,
it answers any requests as the map that it was opened with while it is open, and after any of them
its file is replayed to its end and comes to the map by then. It is closed by a request to open it
anew only where its file cannot be written anew; where it can, all requests are answered as by the
map. -/
theorem serveAll_refines (hq : d.outage = .quiet) (hopen : Runs (openAt p ratio) d (.ok t) d')
    (qs : List Request) (hqs : ∀ q ∈ qs, q.Fits) :
    ∃ as u d'' rows, Runs (serveAll p (some t) qs) d' (.ok (as, u)) d'' ∧
      ServedAll (Renewable d' p) (view t.rows) true qs as u.isSome (view rows) ∧
      (Renewable d' p → AnswersAll (view t.rows) qs as (view rows)) ∧ Kept p d'' rows := by
  obtain ⟨-, -, -, -, -, -, -, -, -, -, hpath, -⟩ := runs_openAt.mp hopen
  obtain ⟨as, u, rows, d'', hrun, h, hserved⟩ :=
    (Holding.opened hpath (open_of_openAt hq hopen)).serveAll hqs
  obtain ⟨id, ho⟩ := h.exists_open
  exact ⟨as, u, d'', rows, hrun, hserved, hserved.answersAll, ho.kept⟩

end Lineage.RecordFile

namespace Lineage.Sample

open RecordFile

/-! ### A table opened behind an append that stopped -/

def shelf : Path := ⟨"tables/rows"⟩

/-- The rows of a table with one row. -/
def oneRow : Rows := (∅ : Rows).insert [1] [2]

/-- A disk with a file at the path of the table. -/
def shelved (b : Bytes) : Disk where
  nodes := ((∅ : Std.ExtTreeMap Place Node).insert ["tables"] .directory).insert
    ["tables", "rows"] (.file 0)
  contents := (∅ : Std.ExtTreeMap FileId Bytes).insert 0 b
  unused := 1

/-- The table of a disk can be written anew. -/
abbrev Renews (d : Disk) : Prop :=
  shelf.parent? = some ⟨"tables"⟩ ∧ (d.withFile (shelf.withExtension "rewrite.tmp")).isOk = true ∧
    d.isDirectory ⟨"tables"⟩ = true

theorem renewable_shelf {d : Disk} (h : Renews d) : Renewable d shelf where
  room := by
    obtain ⟨-, hroom, -⟩ := h
    cases hmade : d.withFile (shelf.withExtension "rewrite.tmp") with
    | error e =>
      rw [hmade] at hroom
      cases hroom
    | ok made => exact ⟨made, rfl⟩
  housed dir hparent := by
    cases h.1.symm.trans hparent
    exact h.2.2

/-- One row, and the beginning of another one's frame. -/
def cutShelf : Disk :=
  shelved ((Record.put [1] [2]).frame ++ (Record.put [3] [4]).frame.take 9)

def requests : List Request :=
  [.scan, .put [5] [6], .reopen 1, .delete [1], .reopen 1, .scan, .get [5], .isEmpty]

def answers : List Answer :=
  [.rows [([1], [2])], .done, .done, .done, .done, .rows [([5], [6])], .value (some [6]),
    .empty false]

theorem serveAll_cutShelf : ∃ d u d' rows, Runs (openAt shelf 4) cutShelf (.ok ⟨shelf, 1, oneRow⟩) d ∧
    Runs (RecordFile.serveAll shelf (some ⟨shelf, 1, oneRow⟩) requests) d (.ok (answers, u)) d' ∧
    AnswersAll (view oneRow) requests answers (view rows) ∧ Kept shelf d' rows := by
  obtain ⟨hfound, hrenews, hgiven⟩ :
      ((openAt shelf 4).run.run cutShelf).1.toOption = some ⟨shelf, 1, oneRow⟩ ∧
      Renews ((openAt shelf 4).run.run cutShelf).2 ∧
      ((RecordFile.serveAll shelf (some ⟨shelf, 1, oneRow⟩) requests).run.run
        ((openAt shelf 4).run.run cutShelf).2).1.toOption.map Prod.fst = some answers := by
    decide +kernel
  have hopen := runs_of_toOption hfound
  obtain ⟨as, u, d', rows, hrun, -, hanswers, hkept⟩ :=
    serveAll_refines rfl hopen requests (by decide)
  have has : as = answers := by
    rw [show _ = _ from hrun] at hgiven
    exact Option.some.inj hgiven
  subst has
  exact ⟨_, u, d', rows, hopen, hrun, hanswers (renewable_shelf hrenews), hkept⟩

/-! ### Tables that are not opened anew -/

/-- Two changes of one row, after which the file is to be written anew. -/
def twice : List Request := [.put [1] [2], .put [1] [3], .reopen 1, .get [1]]

/-- A new table is not opened anew behind two changes, so that its answers are not those of a map. -/
def GoesShut (p : Path) (d : Disk) (e : IoError) : Prop :=
  ∃ t d₁ as u d₂, Runs (openAt p 4) d (.ok t) d₁ ∧
    Runs (RecordFile.serveAll p (some t) twice) d₁ (.ok (as, u)) d₂ ∧
    as = [.done, .done, .refused (.io e), .closed] ∧ ∀ m, ¬ AnswersAll (view t.rows) twice as m

theorem goesShut {p : Path} {d : Disk} {e : IoError} {t : RecordFile}
    (hfound : ((openAt p 4).run.run d).1.toOption = some t)
    (hgiven : ((RecordFile.serveAll p (some t) twice).run.run
      ((openAt p 4).run.run d).2).1.toOption = some ([.done, .done, .refused (.io e), .closed], none)) :
    GoesShut p d e := by
  refine ⟨t, _, _, none, _, runs_of_toOption hfound, runs_of_toOption hgiven, rfl, fun m h => ?_⟩
  obtain - | ⟨-, - | ⟨-, - | ⟨hreopen, -⟩⟩⟩ := h
  cases hreopen

/-- The directory of a path of one component is not opened once the new file has its place, and
beside a file whose name without its extension is two dots there is none. -/
theorem not_serveAll_refines : GoesShut ⟨"rows"⟩ {} ⟨.notFound, none⟩ ∧
    GoesShut ⟨"tables/..x"⟩ (shelved []) ⟨.isDirectory, none⟩ := by
  constructor
  · exact goesShut (t := ⟨⟨"rows"⟩, 0, ∅⟩) (by decide +kernel) (by decide +kernel)
  · exact goesShut (t := ⟨⟨"tables/..x"⟩, 1, ∅⟩) (by decide +kernel) (by decide +kernel)

end Lineage.Sample
