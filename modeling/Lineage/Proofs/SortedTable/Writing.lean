import Lineage.Proofs.Actions
import Lineage.Proofs.SortedTable.Tables
import Lineage.SortedTable.Writer

/-!
# What a writer writes

A writer takes the entries whose keys come behind the last one taken (`takenFrom`), and puts them
into blocks as `cutFrom` says. A key that does not is refused and leaves no trace
(`sorts`). Where no length is too large, what is finished is the table of these blocks;
where one is, finishing it is refused for the first that is (`finish_offer`).
-/

namespace Lineage.SortedTable

variable {w w' : Writer} {k : InternalKey} {v : Bytes} {pending es given : List Entry} {e : Entry}
  {closed blocks : List (List Entry)} {last : Option InternalKey} {size m n : Nat}
  {r : Except Error Unit}

/-! ## What is taken -/

/-- Nothing was taken before, or the key comes behind the last one that was. -/
def Follows (last : Option InternalKey) (k : InternalKey) : Prop := ∀ l ∈ last, l.Before k

instance : Decidable (Follows last k) := inferInstanceAs (Decidable (∀ l ∈ last, _))

theorem follows_none : Follows none k := fun l hl => absurd hl (Option.not_mem_none l)

/-- Of entries offered one after the other, behind a last key, those that are taken. -/
def takenFrom (last : Option InternalKey) : List Entry → List Entry
  | [] => []
  | e :: rest => if Follows last e.1 then e :: takenFrom (some e.1) rest else takenFrom last rest

/-- The numbers of those that are refused, counted from `n`. -/
def refusedFrom (n : Nat) (last : Option InternalKey) : List Entry → List Nat
  | [] => []
  | e :: rest =>
    if Follows last e.1 then refusedFrom (n + 1) (some e.1) rest
    else n :: refusedFrom (n + 1) last rest

/-- What was taken is taken again. -/
theorem takenFrom_takenFrom : takenFrom last (takenFrom last given) = takenFrom last given := by
  induction given generalizing last with
  | nil => rfl
  | cons e given ih =>
    rw [takenFrom]
    split
    · rw [takenFrom, if_pos ‹_›, ih]
    · exact ih

theorem refusedFrom_takenFrom : refusedFrom n last (takenFrom last given) = [] := by
  induction given generalizing last n with
  | nil => rfl
  | cons e given ih =>
    rw [takenFrom]
    split
    · rw [refusedFrom, if_pos ‹_›, ih]
    · exact ih

theorem mem_of_mem_takenFrom (h : e ∈ takenFrom last given) : e ∈ given := by
  induction given generalizing last with
  | nil => exact h
  | cons e' given ih =>
    rw [takenFrom] at h
    split at h
    · rcases List.mem_cons.mp h with rfl | h
      · exact List.mem_cons_self
      · exact List.mem_cons_of_mem _ (ih h)
    · exact List.mem_cons_of_mem _ (ih h)

/-- Where nothing is refused everything is taken. -/
theorem takenFrom_eq_self (h : refusedFrom n last given = []) : takenFrom last given = given := by
  induction given generalizing last n with
  | nil => rfl
  | cons e given ih =>
    rw [refusedFrom] at h
    rw [takenFrom]
    split
    · rw [if_pos ‹_›] at h
      rw [ih h]
    · rw [if_neg ‹_›] at h
      cases h

/-! ## How it is cut -/

/-- The blocks that entries are put into, behind those of an open block, where a block is closed
once its checked part has the given size. -/
def cutFrom (size : Nat) (pending : List Entry) : List Entry → List (List Entry)
  | [] => if pending = [] then [] else [pending]
  | e :: rest =>
    if size ≤ (payload (pending ++ [e])).length then (pending ++ [e]) :: cutFrom size [] rest
    else cutFrom size (pending ++ [e]) rest

/-- The blocks of a new writer that is offered some entries. -/
def blocksOf (size : Nat) (given : List Entry) : List (List Entry) :=
  cutFrom (max size 64) [] (takenFrom none given)

theorem flatten_cutFrom : (cutFrom size es given).flatten = es ++ given := by
  induction given generalizing es with
  | nil =>
    rw [cutFrom, List.append_nil]
    split
    · rw [‹es = []›]
      rfl
    · exact List.append_nil es
  | cons e given ih =>
    rw [cutFrom]
    split
    · rw [List.flatten_cons, ih, List.nil_append, List.append_assoc, List.singleton_append]
    · rw [ih, List.append_assoc, List.singleton_append]

/-- No block is empty. -/
theorem ne_nil_of_mem_cutFrom {b : List Entry} (h : b ∈ cutFrom size pending given) : b ≠ [] := by
  induction given generalizing pending with
  | nil =>
    rw [cutFrom] at h
    split at h
    · exact absurd h List.not_mem_nil
    · rw [List.mem_singleton.mp h]
      assumption
  | cons e given ih =>
    rw [cutFrom] at h
    split at h
    · rcases List.mem_cons.mp h with rfl | h
      · exact List.append_ne_nil_of_right_ne_nil _ (List.cons_ne_nil _ _)
      · exact ih h
    · exact ih h

namespace Writer

/-! ## Single steps -/

theorem accepts_iff : w.accepts k = true ↔ Follows w.lastKey k := by
  rw [accepts, Follows]
  cases w.lastKey with
  | none => exact iff_of_true rfl follows_none
  | some l =>
    rw [decide_eq_true_eq, InternalKey.compare_eq_gt]
    exact ⟨fun h _ hl => Option.some.inj hl ▸ h, fun h => h l rfl⟩

theorem runs_fieldLength_bind {α : Type} {c : Corruption} {f : UInt32 → Action α}
    {r : Except Error α} : Runs (fieldLength n c >>= f) w r w' ↔
      if n < UInt32.size then Runs (f n.toUInt32) w r w'
      else r = .error (.corrupt c) ∧ w' = w := by
  rw [fieldLength]
  split
  · exact runs_pure_bind
  · exact runs_throw_bind

theorem runs_close_of_long (hlong : UInt32.size ≤ (withTrailer w.buffer).length) :
    Runs close w r w' ↔ r = .error (.corrupt .blockTooLarge) ∧ w' = w.flushed := by
  rw [close, runs_get_bind, runs_set_bind, runs_fieldLength_bind, if_neg (Nat.not_lt.mpr hlong)]

theorem runs_close (hlast : w.lastKey = some k) : Runs close w r w' ↔
    if (withTrailer w.buffer).length < UInt32.size then
      r = .ok () ∧ w' = w.closedUnder k (withTrailer w.buffer).length.toUInt32
    else r = .error (.corrupt .blockTooLarge) ∧ w' = w.flushed := by
  rw [close, runs_get_bind, runs_set_bind, runs_fieldLength_bind, hlast]
  simp only [runs_set]

/-- The writer with one more entry in its open block. -/
def push (w : Writer) (k : InternalKey) (v : Bytes) : Writer :=
  { w.noted k with buffer := (w.noted k).buffer ++ k.encode }.completed v v.length.toUInt32

theorem runs_put (hfits : Entry.Fits (k, v)) : Runs (put k v) w r w' ↔
    if w.blockSize ≤ (w.push k v).buffer.length then Runs close (w.push k v) r w'
    else r = .ok () ∧ w' = w.push k v := by
  have hkey : InternalKey.appendTo (w.noted k).buffer k = .ok ((w.noted k).buffer ++ k.encode) :=
    if_pos hfits.key
  rw [put, runs_modify_bind, runs_get_bind, hkey]
  change Runs (fieldLength v.length .valueTooLarge >>= _) _ r w' ↔ _
  rw [runs_fieldLength_bind, if_pos hfits.value, runs_modify_bind, runs_get_bind]
  change Runs (if w.blockSize ≤ (w.push k v).buffer.length then close else pure ()) (w.push k v) r
    w' ↔ _
  split
  · exact Iff.rfl
  · exact runs_pure

/-- What becomes of an entry whose key follows and whose lengths fit. -/
inductive Adds (w : Writer) (k : InternalKey) (v : Bytes) : Except Error Unit → Writer → Prop
  | opened (room : (w.push k v).buffer.length < w.blockSize) : Adds w k v (.ok ()) (w.push k v)
  | closed (full : w.blockSize ≤ (w.push k v).buffer.length)
      (fits : (withTrailer (w.push k v).buffer).length < UInt32.size) : Adds w k v (.ok ())
        ((w.push k v).closedUnder k (withTrailer (w.push k v).buffer).length.toUInt32)
  | overlong (full : w.blockSize ≤ (w.push k v).buffer.length)
      (long : UInt32.size ≤ (withTrailer (w.push k v).buffer).length) :
      Adds w k v (.error (.corrupt .blockTooLarge)) (w.push k v).flushed

theorem refused_of_runs (hk : ¬ Follows w.lastKey k) (h : Runs (add k v) w r w') :
    r = .error (.corrupt .unsortedKeys) ∧ w' = w := by
  rw [add, runs_get_bind, if_neg (mt accepts_iff.mp hk)] at h
  exact runs_throw.mp h

theorem adds_of_runs (hk : Follows w.lastKey k) (hfits : Entry.Fits (k, v))
    (h : Runs (add k v) w r w') : Adds w k v r w' := by
  rw [add, runs_get_bind, if_pos (accepts_iff.mpr hk), runs_put hfits] at h
  split at h
  · have hfull := ‹w.blockSize ≤ _›
    rw [runs_close (k := k) rfl] at h
    split at h
    · obtain ⟨rfl, rfl⟩ := h
      exact .closed hfull ‹_›
    · obtain ⟨rfl, rfl⟩ := h
      exact .overlong hfull (Nat.le_of_not_lt ‹_›)
  · obtain ⟨rfl, rfl⟩ := h
    exact .opened (Nat.lt_of_not_le ‹_›)

/-- The key is taken note of even if a block is too long for it. -/
theorem Adds.lastKey (h : Adds w k v r w') : w'.lastKey = some k ∧ w'.blockSize = w.blockSize := by
  cases h <;> exact ⟨rfl, rfl⟩

/-! ## The open block -/

/-- The writer has taken some entries, of which the first are in closed blocks and the others in the
open one. -/
structure Holds (w : Writer) (closed : List (List Entry)) (pending es : List Entry) : Prop where
  all : closed.flatten ++ pending = es
  fits : ∀ b ∈ closed, (block b).length < UInt32.size
  written : w.written = closed.flatMap block
  index : w.index = indexFrom 0 closed
  hashes : w.hashes = closed.flatMap fun b => Blake3.hash (payload b)
  dataBytes : w.dataBytes = (closed.flatMap payload).length.toUInt64
  buffer : w.buffer = if pending = [] then [] else payload pending
  count : w.count = pending.length
  smallest : w.smallest = es.head?.map fun e => e.1.userKey
  lastKey : w.lastKey = es.getLast?.map Prod.fst
  maxSequence : w.maxSequence = latestIn es
  entries : w.entries = es.length.toUInt64
  tombstones : w.tombstones = (tombstonesIn es).toUInt64

theorem holds_new (size : Nat) : (new size).Holds [] [] [] :=
  ⟨rfl, nofun, rfl, rfl, rfl, rfl, rfl, rfl, rfl, rfl, rfl, rfl, rfl⟩

theorem Holds.buffer_noted (h : w.Holds closed pending es) :
    (w.noted k).buffer = payload pending := by
  change (if w.count = 0 then w.buffer ++ Bytes.ofUInt32 0 else w.buffer) = _
  rw [h.count, h.buffer]
  by_cases hnil : pending = []
  · rw [hnil]
    rfl
  · rw [if_neg (mt List.length_eq_zero_iff.mp hnil), if_neg hnil]

theorem Holds.buffer_push (h : w.Holds closed pending es) :
    (w.push k v).buffer = payload (pending ++ [(k, v)]) := by
  change Bytes.ofUInt32 (w.count + 1).toUInt32 ++ ((w.noted k).buffer ++ k.encode ++
    (Bytes.ofUInt32 v.length.toUInt32 ++ v)).drop 4 = _
  rw [h.count, h.buffer_noted, payload, payload, List.length_append, List.flatMap_append,
    List.flatMap_singleton, entryBytes]
  simp only [List.append_assoc, List.drop_left' (Bytes.length_ofUInt32 _), List.length_singleton]

theorem Holds.push (h : w.Holds closed pending es) :
    (w.push k v).Holds closed (pending ++ [(k, v)]) (es ++ [(k, v)]) where
  all := by rw [← h.all, List.append_assoc]
  fits := h.fits
  written := h.written
  index := h.index
  hashes := h.hashes
  dataBytes := h.dataBytes
  buffer := by
    rw [if_neg (List.append_ne_nil_of_right_ne_nil _ (List.cons_ne_nil _ _)), h.buffer_push]
  count := by
    rw [List.length_append, ← h.count]
    rfl
  smallest := by
    change w.smallest.or (some k.userKey) = _
    rw [h.smallest, List.head?_append, Option.map_or]
    rfl
  lastKey := by
    rw [List.getLast?_concat]
    rfl
  maxSequence := by
    change max w.maxSequence k.sequence = _
    rw [h.maxSequence, latestIn, latestIn, List.foldl_append]
    rfl
  entries := by
    change w.entries + 1 = _
    rw [h.entries, List.length_append]
    exact (UInt64.ofNat_add _ 1).symm
  tombstones := by
    change w.tombstones + (if k.kind = .deletion then 1 else 0) = _
    rw [h.tombstones, tombstonesIn, tombstonesIn, List.countP_append,
      List.countP_singleton]
    by_cases hkind : k.kind = .deletion
    · simp only [hkind, decide_true, if_true]
      exact (UInt64.ofNat_add _ 1).symm
    · simp only [hkind, decide_false, if_false, Bool.false_eq_true]
      exact UInt64.add_zero _

theorem Holds.withTrailer_buffer (h : w.Holds closed pending es) (hne : pending ≠ []) :
    withTrailer w.buffer = block pending := by
  rw [h.buffer, if_neg hne]
  rfl

/-- Closing the open block makes it the last one of the closed blocks. -/
theorem Holds.closedUnder (h : w.Holds closed pending es) (hlast : pending.getLast? = some (k, v))
    (hfits : (block pending).length < UInt32.size) :
    (w.closedUnder k (block pending).length.toUInt32).Holds (closed ++ [pending]) [] es := by
  have hne : pending ≠ [] := fun hnil => by rw [hnil] at hlast; cases hlast
  have hbuffer : w.buffer = payload pending := h.buffer.trans (if_neg hne)
  exact {
    all := by
      rw [List.append_nil, List.flatten_append, List.flatten_singleton, h.all]
    fits := List.forall_mem_append.mpr ⟨h.fits, List.forall_mem_singleton.mpr hfits⟩
    written := by
      rw [List.flatMap_append, List.flatMap_singleton, ← h.written,
        ← h.withTrailer_buffer hne]
      rfl
    index := by
      rw [indexFrom_append, ← h.index, ← h.written, indexFrom, indexFor?, hlast, Nat.zero_add]
      rfl
    hashes := by
      rw [List.flatMap_append, List.flatMap_singleton, ← h.hashes, ← hbuffer]
      rfl
    dataBytes := by
      rw [List.flatMap_append, List.flatMap_singleton, List.length_append, ← hbuffer]
      change w.dataBytes + w.buffer.length.toUInt64 = _
      rw [h.dataBytes]
      exact (UInt64.ofNat_add _ _).symm
    buffer := rfl
    count := rfl
    smallest := h.smallest
    lastKey := h.lastKey
    maxSequence := h.maxSequence
    entries := h.entries
    tombstones := h.tombstones }

/-- A block that should have been closed was too long. It stays open, and only gets longer. -/
structure Stuck (w : Writer) : Prop where
  count : 0 < w.count
  full : w.blockSize ≤ w.buffer.length
  long : UInt32.size ≤ w.buffer.length

theorem length_le_withTrailer {b : Bytes} : b.length ≤ (withTrailer b).length := by
  rw [withTrailer, List.length_append]
  exact Nat.le_add_right ..

theorem stuck_flushed (hcount : 0 < w.count) (hfull : w.blockSize ≤ w.buffer.length)
    (hlong : UInt32.size ≤ (withTrailer w.buffer).length) : w.flushed.Stuck where
  count := hcount
  full := Nat.le_trans hfull length_le_withTrailer
  long := hlong

theorem Stuck.length_push (h : w.Stuck) : w.buffer.length ≤ (w.push k v).buffer.length := by
  have hnoted : (w.noted k).buffer = w.buffer := if_neg (Nat.ne_of_gt h.count)
  change _ ≤ (Bytes.ofUInt32 (w.count + 1).toUInt32 ++ ((w.noted k).buffer ++ k.encode ++
    (Bytes.ofUInt32 v.length.toUInt32 ++ v)).drop 4).length
  rw [hnoted, List.length_append, List.length_drop, Bytes.length_ofUInt32, List.length_append,
    List.length_append]
  omega

theorem Stuck.adds (h : w.Stuck) (hadd : Adds w k v r w') : w'.Stuck := by
  have hpush := h.length_push (k := k) (v := v)
  cases hadd with
  | opened room => exact absurd (Nat.le_trans h.full hpush) (Nat.not_le.mpr room)
  | closed full fits =>
    exact absurd (Nat.le_trans h.long (Nat.le_trans hpush length_le_withTrailer))
      (Nat.not_le.mpr fits)
  | overlong full long => exact stuck_flushed (Nat.succ_pos _) full long

/-- One more entry is held, or its block is too long. How the entries behind it are cut does not
change. -/
theorem Holds.adds (h : w.Holds closed pending es) (hadd : Adds w k v r w') :
    (r = .ok () ∧ ∃ more pending', w'.Holds (closed ++ more) pending' (es ++ [(k, v)]) ∧
      ∀ rest, cutFrom w.blockSize pending ((k, v) :: rest) =
        more ++ cutFrom w.blockSize pending' rest) ∨
    (r = .error (.corrupt .blockTooLarge) ∧ w'.Stuck ∧
      ∀ rest, ∃ b ∈ cutFrom w.blockSize pending ((k, v) :: rest),
        UInt32.size ≤ (block b).length) := by
  have hne : pending ++ [(k, v)] ≠ [] :=
    List.append_ne_nil_of_right_ne_nil _ (List.cons_ne_nil _ _)
  have hblock : withTrailer (w.push k v).buffer = block (pending ++ [(k, v)]) :=
    h.push.withTrailer_buffer hne
  cases hadd with
  | opened room =>
    rw [h.buffer_push] at room
    refine .inl ⟨rfl, [], _, by rw [List.append_nil]; exact h.push, fun rest => ?_⟩
    rw [cutFrom, if_neg (Nat.not_le.mpr room), List.nil_append]
  | closed full fits =>
    rw [h.buffer_push] at full
    rw [hblock] at fits ⊢
    refine .inl ⟨rfl, _, [], h.push.closedUnder List.getLast?_concat fits, fun rest => ?_⟩
    rw [cutFrom, if_pos full, List.singleton_append]
  | overlong full long =>
    refine .inr ⟨rfl, stuck_flushed (Nat.succ_pos _) full long, fun rest => ?_⟩
    rw [h.buffer_push] at full
    rw [cutFrom, if_pos full]
    exact ⟨_, List.mem_cons_self, hblock ▸ long⟩

/-! ## Runs -/

theorem offerFrom_cons (h : Runs (add k v) w r w') : w.offerFrom n ((k, v) :: given) =
    ((w'.offerFrom (n + 1) given).1, (match r with
      | .ok () => (w'.offerFrom (n + 1) given).2
      | .error e => (n, e) :: (w'.offerFrom (n + 1) given).2)) := by
  have hrun : (add k v).run.run w = (r, w') := h
  rw [offerFrom, hrun]
  cases r <;> rfl

/-- What is known of entries that were offered whether their blocks are too long or not. -/
structure Sorts (w : Writer) (n : Nat) (given : List Entry) : Prop where
  /-- A key that does not come behind the last one is refused. -/
  unsorted : (w.offerFrom n given).2.filter (·.2 = .corrupt .unsortedKeys) =
    (refusedFrom n w.lastKey given).map fun i => (i, .corrupt .unsortedKeys)
  /-- It leaves no trace: the writer is as if only what is taken had been offered. -/
  untraced : ∀ m, (w.offerFrom m (takenFrom w.lastKey given)).1 = (w.offerFrom n given).1
  /-- Else only a block is refused. -/
  others : ∀ e ∈ (w.offerFrom n given).2,
    e.2 = .corrupt .unsortedKeys ∨ e.2 = .corrupt .blockTooLarge

theorem sorts (hfits : ∀ e ∈ takenFrom w.lastKey given, Entry.Fits e) : w.Sorts n given := by
  induction given generalizing w n with
  | nil => exact ⟨rfl, fun _ => rfl, nofun⟩
  | cons e given ih =>
    obtain ⟨k, v⟩ := e
    rw [takenFrom] at hfits
    obtain ⟨r, w', hrun⟩ := exists_runs (add k v) w
    by_cases hk : Follows w.lastKey k
    · rw [if_pos hk, List.forall_mem_cons] at hfits
      have hadd := adds_of_runs hk hfits.1 hrun
      have hlast := hadd.lastKey.1
      have hmore := ih (n := n + 1) (hlast.symm ▸ hfits.2)
      refine ⟨?_, fun m => ?_, ?_⟩
      · rw [offerFrom_cons hrun, refusedFrom, if_pos hk, ← hlast, ← hmore.unsorted]
        cases hadd <;> rfl
      · rw [takenFrom, if_pos hk, offerFrom_cons hrun, offerFrom_cons hrun, ← hlast]
        exact hmore.untraced (m + 1)
      · rw [offerFrom_cons hrun]
        cases hadd with
        | opened => exact hmore.others
        | closed => exact hmore.others
        | overlong => exact List.forall_mem_cons.mpr ⟨.inr rfl, hmore.others⟩
    · rw [if_neg hk] at hfits
      have hmore := ih (n := n + 1) hfits
      obtain ⟨rfl, rfl⟩ := refused_of_runs hk hrun
      refine ⟨?_, fun m => ?_, ?_⟩
      · rw [offerFrom_cons hrun, refusedFrom, if_neg hk, List.map_cons, ← hmore.unsorted]
        rfl
      · rw [takenFrom, if_neg hk, offerFrom_cons hrun]
        exact hmore.untraced m
      · rw [offerFrom_cons hrun]
        exact List.forall_mem_cons.mpr ⟨.inl rfl, hmore.others⟩

/-- Once a writer is stuck it stays so. -/
theorem Stuck.offerFrom (h : w.Stuck) (hfits : ∀ e ∈ takenFrom w.lastKey given, Entry.Fits e) :
    (w.offerFrom n given).1.Stuck := by
  induction given generalizing w n with
  | nil => exact h
  | cons e given ih =>
    obtain ⟨k, v⟩ := e
    rw [takenFrom] at hfits
    obtain ⟨r, w', hrun⟩ := exists_runs (add k v) w
    rw [offerFrom_cons hrun]
    by_cases hk : Follows w.lastKey k
    · rw [if_pos hk, List.forall_mem_cons] at hfits
      have hadd := adds_of_runs hk hfits.1 hrun
      exact ih (h.adds hadd) (hadd.lastKey.1.symm ▸ hfits.2)
    · rw [if_neg hk] at hfits
      obtain ⟨-, rfl⟩ := refused_of_runs hk hrun
      exact ih h hfits

/-- What a writer holds after it was offered entries: what was taken before and is taken of these,
cut into blocks as if all of them had been known at once. Else one of these blocks is too long. -/
theorem Holds.offerFrom (h : w.Holds closed pending es)
    (hfits : ∀ e ∈ takenFrom w.lastKey given, Entry.Fits e) :
    ((w.offerFrom n given).2 =
        (refusedFrom n w.lastKey given).map (fun i => (i, .corrupt .unsortedKeys)) ∧
      ∃ more pending', (w.offerFrom n given).1.Holds (closed ++ more) pending'
          (es ++ takenFrom w.lastKey given) ∧
        (w.offerFrom n given).1.blockSize = w.blockSize ∧
        cutFrom w.blockSize pending (takenFrom w.lastKey given) =
          more ++ cutFrom w.blockSize pending' []) ∨
    ((w.offerFrom n given).1.Stuck ∧ ∃ b ∈ cutFrom w.blockSize pending
      (takenFrom w.lastKey given), UInt32.size ≤ (block b).length) := by
  induction given generalizing w closed pending es n with
  | nil =>
    refine .inl ⟨rfl, [], pending, ?_, rfl, rfl⟩
    rw [takenFrom, List.append_nil, List.append_nil]
    exact h
  | cons e given ih =>
    obtain ⟨k, v⟩ := e
    rw [takenFrom] at hfits ⊢
    obtain ⟨r, w', hrun⟩ := exists_runs (add k v) w
    rw [offerFrom_cons hrun, refusedFrom]
    by_cases hk : Follows w.lastKey k
    · rw [if_pos hk, List.forall_mem_cons] at hfits
      rw [if_pos hk, if_pos hk]
      have hadd := adds_of_runs hk hfits.1 hrun
      obtain ⟨hlast, hsize⟩ := hadd.lastKey
      rw [← hlast] at hfits ⊢
      rcases h.adds hadd with ⟨rfl, more, pending', hholds, hcut⟩ | ⟨rfl, hstuck, hlong⟩
      · rw [hcut]
        rcases ih hholds hfits.2 with ⟨hrefused, more', pending'', hholds', hsize', hcut'⟩ |
          ⟨hstuck, b, hb, hlong⟩
        · refine .inl ⟨hrefused, more ++ more', pending'', ?_, hsize'.trans hsize, ?_⟩
          · rw [List.append_assoc, List.append_assoc] at hholds'
            exact hholds'
          · rw [← hsize, hcut', List.append_assoc]
        · exact .inr ⟨hstuck, b, List.mem_append_right _ (hsize ▸ hb), hlong⟩
      · exact .inr ⟨hstuck.offerFrom hfits.2, hlong _⟩
    · rw [if_neg hk] at hfits
      rw [if_neg hk, if_neg hk]
      obtain ⟨rfl, rfl⟩ := refused_of_runs hk hrun
      rcases ih (n := n + 1) h hfits with ⟨hrefused, hrest⟩ | hrest
      · exact .inl ⟨congrArg _ hrefused, hrest⟩
      · exact .inr hrest

/-! ## The end -/

/-- How finishing a table of some blocks may end. -/
inductive Ends (blocks : List (List Entry)) : Except Error Properties → Writer → Prop
  | written {w : Writer} (fits : tooLarge? blocks = none) (table : w.written = table blocks) :
      Ends blocks (.ok (propertiesOf blocks)) w
  | refused {w : Writer} {c : Corruption} (long : tooLarge? blocks = some c) :
      Ends blocks (.error (.corrupt c)) w

variable {x : Except Error Properties}

theorem Holds.writeEnd (h : w.Holds blocks [] es) (hrun : Runs writeEnd w x w') :
    Ends blocks x w' := by
  have hes := h.all
  rw [List.append_nil] at hes
  have hblocks : ¬ ∃ es ∈ blocks, UInt32.size ≤ (block es).length :=
    fun ⟨b, hb, hlong⟩ => Nat.not_le.mpr (h.fits b hb) hlong
  have hindex : indexFormat.write w.index = indexBytes blocks := by rw [h.index, indexBytes]
  have hlargest : (w.lastKey.map InternalKey.userKey).getD [] =
      (es.getLast?.map fun e => e.1.userKey).getD [] := by
    rw [h.lastKey, Option.map_map]
    rfl
  have hproperties : w.propertiesWith (indexBytes blocks) = propertiesOf blocks := by
    rw [propertiesWith, propertiesOf, hes, hlargest, h.hashes, h.smallest, h.maxSequence,
      h.entries, h.tombstones, h.dataBytes, rootOf]
  rw [Writer.writeEnd, runs_get_bind] at hrun
  dsimp only at hrun
  rw [runs_set_bind, runs_fieldLength_bind, hindex, hproperties, ← propertyBytes] at hrun
  split at hrun
  · rename_i hshort
    rw [runs_fieldLength_bind] at hrun
    split at hrun
    · rename_i hshort'
      rw [runs_set_bind] at hrun
      obtain ⟨rfl, rfl⟩ := runs_pure.mp hrun
      refine .written ?_ ?_
      · rw [tooLarge?, if_neg hblocks, if_neg (Nat.not_le.mpr hshort),
          if_neg (Nat.not_le.mpr hshort')]
      · rw [h.written]
        rfl
    · obtain ⟨rfl, rfl⟩ := hrun
      refine .refused ?_
      rw [tooLarge?, if_neg hblocks, if_neg (Nat.not_le.mpr hshort),
        if_pos (Nat.le_of_not_lt ‹_›)]
  · obtain ⟨rfl, rfl⟩ := hrun
    refine .refused ?_
    rw [tooLarge?, if_neg hblocks, if_pos (Nat.le_of_not_lt ‹_›)]

theorem Holds.closeLast (h : w.Holds closed pending es) (hrun : Runs closeLast w r w') :
    (r = .ok () ∧ w'.Holds (closed ++ cutFrom w.blockSize pending []) [] es) ∨
      (r = .error (.corrupt .blockTooLarge) ∧
        ∃ b ∈ cutFrom w.blockSize pending [], UInt32.size ≤ (block b).length) := by
  rw [Writer.closeLast, runs_get_bind, h.count] at hrun
  rw [cutFrom]
  by_cases hnil : pending = []
  · subst hnil
    obtain ⟨rfl, rfl⟩ := runs_pure.mp hrun
    exact .inl ⟨rfl, by rw [if_pos rfl, List.append_nil]; exact h⟩
  · obtain ⟨⟨k, v⟩, hlast⟩ := Option.ne_none_iff_exists'.mp (mt List.getLast?_eq_none_iff.mp hnil)
    have hkey : w.lastKey = some k := by
      rw [h.lastKey, ← h.all, List.getLast?_append, hlast]
      rfl
    rw [if_pos (List.length_pos_iff.mpr hnil), runs_close hkey, h.withTrailer_buffer hnil] at hrun
    rw [if_neg hnil]
    split at hrun
    · obtain ⟨rfl, rfl⟩ := hrun
      exact .inl ⟨rfl, h.closedUnder hlast ‹_›⟩
    · exact .inr ⟨hrun.1, pending, List.mem_singleton_self _, Nat.le_of_not_lt ‹_›⟩

/-- What is finished is the table of the blocks so far, of which the open one is the last. -/
theorem Holds.finish (h : w.Holds closed pending es) (hrun : Runs finish w x w') :
    Ends (closed ++ cutFrom w.blockSize pending []) x w' := by
  rcases runs_bind.mp hrun with ⟨_, w₁, hclose, hend⟩ | ⟨e, hclose, rfl⟩
  · rcases h.closeLast hclose with ⟨-, hholds⟩ | ⟨hr, -⟩
    · exact hholds.writeEnd hend
    · cases hr
  · rcases h.closeLast hclose with ⟨hr, -⟩ | ⟨hr, b, hb, hlong⟩
    · cases hr
    · cases hr
      exact .refused (if_pos ⟨b, List.mem_append_right _ hb, hlong⟩)

theorem Stuck.closeLast (h : w.Stuck) (hrun : Runs closeLast w r w') :
    r = .error (.corrupt .blockTooLarge) := by
  rw [Writer.closeLast, runs_get_bind, if_pos h.count,
    runs_close_of_long (Nat.le_trans h.long length_le_withTrailer)] at hrun
  exact hrun.1

theorem Stuck.finish (h : w.Stuck) (hrun : Runs finish w x w') :
    x = .error (.corrupt .blockTooLarge) := by
  rcases runs_bind.mp hrun with ⟨_, w₁, hclose, -⟩ | ⟨e, hclose, rfl⟩
  · cases h.closeLast hclose
  · cases h.closeLast hclose
    rfl

/-- The table that is finished after entries were offered is that of what was taken of them. -/
theorem finish_offer (hfits : ∀ e ∈ takenFrom none given, Entry.Fits e)
    (hrun : Runs finish ((new size).offer given).1 x w') : Ends (blocksOf size given) x w' := by
  rcases (holds_new size).offerFrom (n := 0) hfits with
    ⟨-, more, pending', hholds, hsize, hcut⟩ | ⟨hstuck, hlong⟩
  · have hends := hholds.finish hrun
    rw [hsize, List.nil_append, ← hcut] at hends
    exact hends
  · cases hstuck.finish hrun
    exact .refused (if_pos hlong)

/-- If no block is too long, keys are refused for their order only, and what was taken is taken
again. -/
theorem offer_of_short (hfits : ∀ e ∈ takenFrom none given, Entry.Fits e)
    (hshort : ∀ b ∈ blocksOf size given, (block b).length < UInt32.size) :
    ((new size).offer given).2 =
        (refusedFrom 0 none given).map (fun i => (i, .corrupt .unsortedKeys)) ∧
      (new size).offer (takenFrom none given) = (((new size).offer given).1, []) := by
  have hrefused {es : List Entry} (hes : takenFrom none es = takenFrom none given) :
      ((new size).offer es).2 =
        (refusedFrom 0 none es).map (fun i => (i, .corrupt .unsortedKeys)) := by
    have hcut : blocksOf size es = blocksOf size given := by rw [blocksOf, blocksOf, hes]
    rcases (holds_new size).offerFrom (n := 0) (hes ▸ hfits) with
      ⟨hrefused, -⟩ | ⟨-, b, hb, hlong⟩
    · exact hrefused
    · exact absurd hlong (Nat.not_le.mpr (hshort b (hcut ▸ hb)))
  have hsame := (sorts (w := new size) (n := 0) hfits).untraced 0
  refine ⟨hrefused rfl, Prod.ext hsame ?_⟩
  rw [hrefused takenFrom_takenFrom, refusedFrom_takenFrom]
  rfl

/-- Where no key is refused for its order, a block that is too long is all that may be refused. -/
theorem long_of_mem_offer (hfits : ∀ e ∈ takenFrom none given, Entry.Fits e)
    (hnone : refusedFrom 0 none given = []) {i : Nat} {err : Error}
    (h : (i, err) ∈ ((new size).offer given).2) :
    tooLarge? (blocksOf size given) = some .blockTooLarge ∧ err = .corrupt .blockTooLarge := by
  have hsorts := sorts (w := new size) (n := 0) hfits
  constructor
  · refine if_pos (Decidable.byContradiction fun hshort => ?_)
    simp only [not_exists, not_and, Nat.not_le] at hshort
    rw [(offer_of_short hfits hshort).1, hnone] at h
    exact absurd h List.not_mem_nil
  · refine (hsorts.others _ h).resolve_left fun hunsorted => ?_
    have hin : (i, err) ∈ ((new size).offerFrom 0 given).2.filter
        (·.2 = .corrupt .unsortedKeys) := List.mem_filter.mpr ⟨h, decide_eq_true hunsorted⟩
    have hnone' : refusedFrom 0 (new size).lastKey given = [] := hnone
    rw [hsorts.unsorted, hnone'] at hin
    exact absurd hin List.not_mem_nil

end Writer

end Lineage.SortedTable
