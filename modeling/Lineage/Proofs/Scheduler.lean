import Mathlib.Data.List.Count
import Lineage.Scheduler.Rehearsal

/-!
# Shutting down

A scheduler is shut down while its workers go on: they begin and end runs, leave, and say so, and
the shutdown hears of them until its time is over. It waits for all workers that are not given up.
So the first shutdown answers `true` only when all have left, and nothing begins from then on
(`Run.truthful`). It gives the workers up whatever it answers: a later one waits for none, and
answers `true` though a task may be running (`shutdown_twice`). What is rehearsed are such runs
(`run_rehearsed`).
-/

namespace Lineage

/-- A worker that neither left nor was given up. -/
def Worker.AtWork (w : Worker) : Prop := w.phase ≠ .exited ∧ w.detached = false

namespace Scheduler

variable {s s' : Scheduler} {n k : Nat} {p q : Phase} {w : Worker}

/-! ## Workers -/

/-- How many workers have left. -/
def exited (s : Scheduler) : Nat := s.workers.countP (·.phase = .exited)

/-- All workers have left. -/
def AllExited (s : Scheduler) : Prop := ∀ w ∈ s.workers, w.phase = .exited

/-- A worker is put into another phase, and all others stay as they are. -/
theorem exists_of_phase? (h : s.phase? n = some p) : ∃ front w back,
    s.workers = front ++ w :: back ∧ w.phase = p ∧
      ∀ q, (s.setPhase n q).workers = front ++ { w with phase := q } :: back := by
  obtain ⟨w, hw, rfl⟩ := Option.map_eq_some_iff.mp h
  obtain ⟨hlt, rfl⟩ := List.getElem?_eq_some_iff.mp hw
  refine ⟨s.workers.take n, s.workers[n], s.workers.drop (n + 1), ?_, rfl, fun q => ?_⟩
  · rw [List.getElem_cons_drop, List.take_append_drop]
  · rw [setPhase, List.modify_eq_take_cons_drop hlt]

theorem length_setPhase : (s.setPhase n q).workers.length = s.workers.length :=
  List.length_modify _ _ _

theorem mem_setPhase (h : w ∈ (s.setPhase n q).workers) :
    w ∈ s.workers ∨ ∃ u ∈ s.workers, w = { u with phase := q } := by
  obtain ⟨m, hm⟩ := List.mem_iff_getElem?.mp h
  rw [setPhase, List.getElem?_modify, Option.map_eq_map, Option.map_eq_some_iff] at hm
  obtain ⟨u, hu, rfl⟩ := hm
  split
  · exact .inr ⟨u, List.mem_of_getElem? hu, rfl⟩
  · exact .inl (List.mem_of_getElem? hu)

theorem detached_setPhase {b : Bool} (h : ∀ w ∈ s.workers, w.detached = b) :
    ∀ w ∈ (s.setPhase n q).workers, w.detached = b := by
  intro w hw
  rcases mem_setPhase hw with hw | ⟨u, hu, rfl⟩
  · exact h w hw
  · exact h u hu

theorem atWork_setPhase (h : ∀ w ∈ s.workers, w.AtWork) (hq : q ≠ .exited) :
    ∀ w ∈ (s.setPhase n q).workers, w.AtWork := by
  intro w hw
  rcases mem_setPhase hw with hw | ⟨u, hu, rfl⟩
  · exact h w hw
  · exact ⟨hq, (h u hu).2⟩

theorem exited_endRun (h : s.phase? n = some .running) :
    (s.setPhase n .waiting).exited = s.exited := by
  obtain ⟨front, w, back, hs, hw, hset⟩ := exists_of_phase? h
  simp [exited, hset, hs, hw]

theorem exited_leave (h : s.phase? n = some .waiting) :
    (s.setPhase n .exited).exited = s.exited + 1 := by
  obtain ⟨front, w, back, hs, hw, hset⟩ := exists_of_phase? h
  simp [exited, hset, hs, hw]
  omega

theorem exited_le : s.exited ≤ s.workers.length := List.countP_le_length

theorem allExited_iff : s.AllExited ↔ s.exited = s.workers.length := by
  simp [exited, AllExited, List.countP_eq_length]

theorem AllExited.phase? (h : s.AllExited) (hp : s.phase? n = some p) : p = .exited := by
  obtain ⟨w, hw, rfl⟩ := Option.map_eq_some_iff.mp hp
  exact h w (List.mem_of_getElem? hw)

theorem AllExited.endGrace (h : s.AllExited) : (s.endGrace k).2.AllExited := by
  intro w hw
  obtain ⟨u, hu, rfl⟩ := List.mem_map.mp hw
  exact h u hu

theorem detached_endGrace : ∀ w ∈ (s.endGrace k).2.workers, w.detached = true := by
  intro w hw
  obtain ⟨u, -, rfl⟩ := List.mem_map.mp hw
  rfl

theorem schedule_eq_ok {task : String} : s.schedule task = .ok s' ↔
    s.stopped = false ∧ s' = { s with workers := s.workers ++ [{ task }] } := by
  rw [schedule]
  split
  · simp [*]
  · simp [*, eq_comm]

theorem hear_eq_some : s.hear = some s' ↔
    ∃ k, s.unheard = k + 1 ∧ s' = { s with unheard := k } := by
  rw [hear]
  cases s.unheard with
  | zero => simp
  | succ k =>
    constructor
    · rintro ⟨⟩
      exact ⟨k, rfl, rfl⟩
    · rintro ⟨_, ⟨⟩, rfl⟩
      rfl

/-! ## Runs -/

/-- A scheduler, and how many workers a shutdown still waits for while it goes on. -/
structure Moment where
  scheduler : Scheduler
  awaited : Option Nat := none

inductive Event where
  | schedule (task : String) (accepted : Bool)
  | beginRun (n : Nat)
  | endRun (n : Nat) (o : Outcome)
  | leave (n : Nat)
  /-- A shutdown begins. -/
  | shutdown
  /-- The shutdown hears of a worker. -/
  | hear
  /-- The shutdown is over. -/
  | answer (ended : Bool)
  deriving DecidableEq

/-- What happens to a scheduler. Workers do what they do at any time, a run ends in any way if it
ends, and a shutdown is over at any time. A run begins as soon as the wait for it is over, so none
does once the workers are told to leave. -/
inductive Step : Moment → Event → Moment → Prop where
  | accept {s s' : Scheduler} {task : String} (ok : s.schedule task = .ok s') :
      Step ⟨s, none⟩ (.schedule task true) ⟨s', none⟩
  | refuse {s : Scheduler} {task : String} {e : ShutDown} (refused : s.schedule task = .error e) :
      Step ⟨s, none⟩ (.schedule task false) ⟨s, none⟩
  | beginRun {s : Scheduler} {a : Option Nat} {n : Nat} (told : s.stopped = false)
      (waits : s.phase? n = some .waiting) : Step ⟨s, a⟩ (.beginRun n) ⟨s.beginRun n, a⟩
  | endRun {s : Scheduler} {a : Option Nat} {n : Nat} {o : Outcome}
      (runs : s.phase? n = some .running) : Step ⟨s, a⟩ (.endRun n o) ⟨s.endRun n o, a⟩
  | leave {s : Scheduler} {a : Option Nat} {n : Nat} (told : s.stopped = true)
      (waits : s.phase? n = some .waiting) : Step ⟨s, a⟩ (.leave n) ⟨s.leave n, a⟩
  | shutdown {s : Scheduler} : Step ⟨s, none⟩ .shutdown ⟨s.stop.2, some s.stop.1⟩
  | hear {s s' : Scheduler} {k : Nat} (said : s.hear = some s') :
      Step ⟨s, some (k + 1)⟩ .hear ⟨s', some k⟩
  | answer {s : Scheduler} {k : Nat} :
      Step ⟨s, some k⟩ (.answer (s.endGrace k).1) ⟨(s.endGrace k).2, none⟩

/-- Events one after the other. -/
inductive Run : Moment → List Event → Moment → Prop where
  | nil {m : Moment} : Run m [] m
  | snoc {m m₁ m' : Moment} {es : List Event} {e : Event} (before : Run m es m₁)
      (last : Step m₁ e m') : Run m (es ++ [e]) m'

variable {m m' : Moment} {e : Event} {es : List Event} {name : String}

/-! ## Before, during and after the first shutdown -/

/-- No shutdown has begun. -/
structure Opened (m : Moment) : Prop where
  awaited : m.awaited = none
  told : m.scheduler.stopped = false
  working : ∀ w ∈ m.scheduler.workers, w.AtWork
  unheard : m.scheduler.unheard = 0

/-- The first shutdown goes on. It waits for the workers that did not leave and for those that it
did not hear of. -/
structure Closing (m : Moment) (k : Nat) : Prop where
  awaited : m.awaited = some k
  told : m.scheduler.stopped = true
  kept : ∀ w ∈ m.scheduler.workers, w.detached = false
  count : m.scheduler.unheard + m.scheduler.workers.length = m.scheduler.exited + k

/-- A shutdown is over, and a later one waits for no worker. -/
structure Ended (m : Moment) : Prop where
  awaited : m.awaited = none ∨ m.awaited = some 0
  told : m.scheduler.stopped = true
  detached : ∀ w ∈ m.scheduler.workers, w.detached = true

theorem Opened.step (h : Opened m) (hs : Step m e m') :
    (e = .shutdown ∧ ∃ k, Closing m' k) ∨ (e ≠ .shutdown ∧ (∀ b, e ≠ .answer b) ∧ Opened m') := by
  cases hs with
  | accept ok =>
    obtain ⟨-, rfl⟩ := schedule_eq_ok.mp ok
    refine .inr ⟨nofun, nofun, rfl, h.told, fun w hw => ?_, h.unheard⟩
    rcases List.mem_append.mp hw with hw | hw
    · exact h.working w hw
    · rw [List.mem_singleton.mp hw]
      exact ⟨nofun, rfl⟩
  | refuse => exact .inr ⟨nofun, nofun, h⟩
  | @beginRun s a n told waits =>
    rw [beginRun, if_pos ⟨told, waits⟩]
    exact .inr ⟨nofun, nofun, h.awaited, h.told, atWork_setPhase h.working nofun, h.unheard⟩
  | @endRun s a n o runs =>
    rw [endRun, if_pos runs]
    exact .inr ⟨nofun, nofun, h.awaited, h.told, atWork_setPhase h.working nofun, h.unheard⟩
  | leave told => cases h.told.symm.trans told
  | @shutdown s =>
    have hpending : s.stop.1 = s.workers.length :=
      List.countP_eq_length.mpr fun w hw => by simp [(h.working w hw).2]
    have hexited : s.exited = 0 :=
      List.countP_eq_zero.mpr fun w hw => by simp [(h.working w hw).1]
    refine .inl ⟨rfl, s.stop.1, rfl, rfl, fun w hw => (h.working w hw).2, ?_⟩
    change s.unheard + s.workers.length = s.exited + s.stop.1
    rw [hpending, hexited, h.unheard]
  | hear => cases h.awaited
  | answer => cases h.awaited

theorem Closing.step (h : Closing m k) (hs : Step m e m') :
    (∃ b, e = .answer b ∧ Ended m' ∧ (b = true → m'.scheduler.AllExited)) ∨
      ((∀ b, e ≠ .answer b) ∧ ∃ k', Closing m' k') := by
  cases hs with
  | accept | refuse | shutdown => cases h.awaited
  | beginRun told => cases h.told.symm.trans told
  | @endRun s a n o runs =>
    rw [endRun, if_pos runs]
    refine .inr ⟨nofun, k, h.awaited, h.told, detached_setPhase h.kept, ?_⟩
    rw [exited_endRun runs, length_setPhase]
    exact h.count
  | @leave s a n told waits =>
    rw [leave, if_pos ⟨told, waits⟩]
    refine .inr ⟨nofun, k, h.awaited, h.told, detached_setPhase h.kept, ?_⟩
    have hcount : s.unheard + s.workers.length = s.exited + k := h.count
    have hexited : (s.setPhase n .exited).exited = s.exited + 1 := exited_leave waits
    have hlength : (s.setPhase n .exited).workers.length = s.workers.length := length_setPhase
    change s.unheard + 1 + (s.setPhase n .exited).workers.length =
      (s.setPhase n .exited).exited + k
    omega
  | @hear s s' k' said =>
    obtain ⟨j, hj, rfl⟩ := hear_eq_some.mp said
    refine .inr ⟨nofun, k', rfl, h.told, h.kept, ?_⟩
    have hawaited : k' + 1 = k := Option.some.inj h.awaited
    have hcount : s.unheard + s.workers.length = s.exited + k := h.count
    change j + s.workers.length = s.exited + k'
    omega
  | @answer s k' =>
    have hawaited : k' = k := Option.some.inj h.awaited
    refine .inl ⟨_, rfl, ⟨.inl rfl, h.told, detached_endGrace (k := k')⟩, fun hb => ?_⟩
    -- as many workers were heard as there are, and each of them had left
    have hzero : k' = 0 := of_decide_eq_true hb
    have hcount : s.unheard + s.workers.length = s.exited + k := h.count
    have hle : s.exited ≤ s.workers.length := exited_le
    exact AllExited.endGrace (k := k') (allExited_iff.mpr (by omega))

theorem Ended.step (h : Ended m) (hs : Step m e m') :
    Ended m' ∧ (∀ n, e ≠ .beginRun n) ∧ e ≠ .answer false ∧
      m'.scheduler.workers.length = m.scheduler.workers.length ∧
      (m.scheduler.AllExited → m'.scheduler.AllExited) := by
  cases hs with
  | accept ok => cases h.told.symm.trans (schedule_eq_ok.mp ok).1
  | refuse => exact ⟨h, nofun, nofun, rfl, id⟩
  | beginRun told => cases h.told.symm.trans told
  | @endRun s a n o runs =>
    rw [endRun, if_pos runs]
    exact ⟨⟨h.awaited, h.told, detached_setPhase h.detached⟩, nofun, nofun, length_setPhase,
      fun hall => nomatch hall.phase? runs⟩
  | @leave s a n told waits =>
    rw [leave, if_pos ⟨told, waits⟩]
    exact ⟨⟨h.awaited, h.told, detached_setPhase h.detached⟩, nofun, nofun, length_setPhase,
      fun hall => nomatch hall.phase? waits⟩
  | @shutdown s =>
    have hpending : s.stop.1 = 0 :=
      List.countP_eq_zero.mpr fun w hw => by simp [h.detached w hw]
    exact ⟨⟨.inr (congrArg some hpending), rfl, h.detached⟩, nofun, nofun, rfl, id⟩
  | hear => cases h.awaited with
    | inl hnone => cases hnone
    | inr hzero => cases hzero
  | @answer s k' =>
    have hzero : k' = 0 := by simpa using h.awaited
    subst hzero
    exact ⟨⟨.inl rfl, h.told, detached_endGrace (k := 0)⟩, nofun, nofun, List.length_map _,
      AllExited.endGrace (k := 0)⟩

/-! ## Answers -/

/-- How far a scheduler is that was shut down in these events. -/
inductive Sound (es : List Event) (m : Moment) : Prop where
  | opened (now : Opened m) (unbegun : .shutdown ∉ es) (unanswered : ∀ b, .answer b ∉ es)
  | closing {k : Nat} (now : Closing m k) (begun : .shutdown ∈ es)
      (unanswered : ∀ b, .answer b ∉ es)
  | ended (now : Ended m) (begun : .shutdown ∈ es)
      (left : .answer false ∉ es → m.scheduler.AllExited)

theorem not_mem_concat {e' : Event} (h : e' ∉ es) (he : e ≠ e') : e' ∉ es ++ [e] := by
  rw [List.mem_append, List.mem_singleton]
  exact not_or.mpr ⟨h, he.symm⟩

theorem Sound.step (h : Sound es m) (hs : Step m e m') : Sound (es ++ [e]) m' := by
  cases h with
  | opened now unbegun unanswered =>
    rcases now.step hs with ⟨rfl, k, hclosing⟩ | ⟨hshutdown, hanswer, hopened⟩
    · exact .closing hclosing (by simp) fun b => not_mem_concat (unanswered b) nofun
    · exact .opened hopened (not_mem_concat unbegun hshutdown)
        fun b => not_mem_concat (unanswered b) (hanswer b)
  | closing now begun unanswered =>
    have hbegun : Event.shutdown ∈ es ++ [e] := List.mem_append_left _ begun
    rcases now.step hs with ⟨b, rfl, hended, hleft⟩ | ⟨hanswer, k, hclosing⟩
    · refine .ended hended hbegun fun hfalse => hleft ?_
      cases b with
      | true => rfl
      | false => exact absurd (by simp) hfalse
    · exact .closing hclosing hbegun fun b => not_mem_concat (unanswered b) (hanswer b)
  | ended now begun left =>
    obtain ⟨hended, -, -, -, hall⟩ := now.step hs
    exact .ended hended (List.mem_append_left _ begun) fun hfalse =>
      hall (left fun h => hfalse (List.mem_append_left _ h))

theorem Sound.ended_of_answer {b : Bool} (h : Sound es m) (hb : .answer b ∈ es) :
    Ended m ∧ (.answer false ∉ es → m.scheduler.AllExited) := by
  cases h with
  | opened _ _ unanswered => exact absurd hb (unanswered b)
  | closing _ _ unanswered => exact absurd hb (unanswered b)
  | ended now _ left => exact ⟨now, left⟩

/-- A scheduler without workers. -/
def start (name : String) : Moment := ⟨{ name }, none⟩

theorem Run.sound (h : Run (start name) es m) : Sound es m := by
  induction h with
  | nil => exact .opened ⟨rfl, rfl, nofun, rfl⟩ List.not_mem_nil fun _ => List.not_mem_nil
  | snoc _ last ih => exact ih.step last

/-- What goes on once a shutdown is over. -/
theorem Run.ended (h : Run m es m') (hm : Ended m) :
    Ended m' ∧ (∀ n, .beginRun n ∉ es) ∧
      m'.scheduler.workers.length = m.scheduler.workers.length ∧
      (m.scheduler.AllExited → m'.scheduler.AllExited) := by
  induction h with
  | nil => exact ⟨hm, fun _ => List.not_mem_nil, rfl, id⟩
  | snoc _ last ih =>
    obtain ⟨hended, hnone, hlength, hall⟩ := ih
    obtain ⟨hended', hne, -, hlength', hall'⟩ := hended.step last
    refine ⟨hended', fun n hn => ?_, hlength'.trans hlength, hall' ∘ hall⟩
    rcases List.mem_append.mp hn with hn | hn
    · exact hnone n hn
    · exact hne n (List.mem_singleton.mp hn).symm

/-- If no shutdown answered `false` and one answered `true`, all workers have left, and no task is
scheduled or run any more. All shutdowns after the first answer `true`. And before a shutdown begins
no worker leaves, however its task fails. -/
theorem Run.truthful (h : Run (start name) es m) :
    (.answer true ∈ es → .answer false ∉ es →
      m.scheduler.AllExited ∧ ∀ es' m', Run m es' m' → m'.scheduler.AllExited ∧
        m'.scheduler.workers.length = m.scheduler.workers.length ∧ ∀ n, .beginRun n ∉ es') ∧
    (∀ b b' m', .answer b ∈ es → Step m (.answer b') m' → b' = true) ∧
    (.shutdown ∉ es → ∀ w ∈ m.scheduler.workers, w.phase ≠ .exited) := by
  refine ⟨fun htrue hfalse => ?_, fun b b' m' hb hs => ?_, fun hnone w hw => ?_⟩
  · obtain ⟨hended, hleft⟩ := h.sound.ended_of_answer htrue
    refine ⟨hleft hfalse, fun es' m' h' => ?_⟩
    obtain ⟨-, hruns, hlength, hall⟩ := h'.ended hended
    exact ⟨hall (hleft hfalse), hlength, hruns⟩
  · obtain ⟨-, -, hne, -⟩ := (h.sound.ended_of_answer hb).1.step hs
    cases b' with
    | true => rfl
    | false => exact absurd rfl hne
  · cases h.sound with
    | opened now => exact (now.working w hw).1
    | closing _ begun => exact absurd begun hnone
    | ended _ begun => exact absurd begun hnone

/-! ## Rehearsals -/

theorem Run.append {m₁ : Moment} {es' : List Event} (h : Run m es m₁) (h' : Run m₁ es' m') :
    Run m (es ++ es') m' := by
  induction h' with
  | nil => rwa [List.append_nil]
  | snoc _ last ih =>
    rw [← List.append_assoc]
    exact .snoc ih last

theorem run_hearAll (s : Scheduler) (k : Nat) : ∃ es, (∀ b, .answer b ∉ es) ∧
    Run ⟨s, some k⟩ es ⟨(s.hearAll k).2, some (s.hearAll k).1⟩ := by
  induction k generalizing s with
  | zero => exact ⟨[], fun _ => List.not_mem_nil, .nil⟩
  | succ k ih =>
    rw [hearAll]
    cases hs : s.hear with
    | none => exact ⟨[], fun _ => List.not_mem_nil, .nil⟩
    | some s₁ =>
      obtain ⟨es, hnone, hrun⟩ := ih s₁
      refine ⟨[.hear] ++ es, fun b hb => ?_, (Run.snoc .nil (.hear hs)).append hrun⟩
      exact hnone b (by simpa using hb)

theorem run_leaveAll {s : Scheduler} (told : s.stopped = true) (a : Option Nat) (l : List Nat) :
    ∃ es, (∀ b, .answer b ∉ es) ∧ Run ⟨s, a⟩ es ⟨l.foldl leave s, a⟩ := by
  induction l generalizing s with
  | nil => exact ⟨[], fun _ => List.not_mem_nil, .nil⟩
  | cons n l ih =>
    by_cases waits : s.phase? n = some .waiting
    · have hleave : s.leave n = { s.setPhase n .exited with unheard := s.unheard + 1 } :=
        if_pos ⟨told, waits⟩
      obtain ⟨es, hnone, hrun⟩ := ih (s := s.leave n) (by rw [hleave]; exact told)
      refine ⟨[.leave n] ++ es, fun b hb => ?_, (Run.snoc .nil (.leave told waits)).append hrun⟩
      exact hnone b (by simpa using hb)
    · have hstay : s.leave n = s := if_neg fun h => waits h.2
      rw [List.foldl_cons, hstay]
      exact ih told

theorem Step.told (hs : Step m e m') (h : m.scheduler.stopped = true) :
    m'.scheduler.stopped = true := by
  cases hs with
  | accept ok => cases h.symm.trans (schedule_eq_ok.mp ok).1
  | refuse | answer => exact h
  | beginRun told => cases h.symm.trans told
  | endRun runs =>
    rw [Scheduler.endRun, if_pos runs]
    exact h
  | leave told waits =>
    rw [Scheduler.leave, if_pos ⟨told, waits⟩]
    exact h
  | shutdown => rfl
  | hear said =>
    obtain ⟨-, -, rfl⟩ := hear_eq_some.mp said
    exact h

theorem Run.told (h : Run m es m') (hm : m.scheduler.stopped = true) :
    m'.scheduler.stopped = true := by
  induction h with
  | nil => exact hm
  | snoc _ last ih => exact last.told ih

/-- A rehearsed shutdown is one that the scheduler may go through, with the same answer. -/
theorem run_rehearsed (r : Rehearsal) (timeout : Nat) :
    ∃ es, (∀ b, .answer b ∈ es ↔ b = (r.shutdown timeout).1) ∧
      Run ⟨r.scheduler, none⟩ es ⟨(r.shutdown timeout).2.scheduler, none⟩ := by
  let s := if timeout = 0 then r.scheduler.stop.2
    else (List.range r.scheduler.stop.2.workers.length).foldl leave r.scheduler.stop.2
  obtain ⟨es₁, h₁, hrun₁⟩ : ∃ es, (∀ b, .answer b ∉ es) ∧
      Run ⟨r.scheduler.stop.2, some r.scheduler.stop.1⟩ es ⟨s, some r.scheduler.stop.1⟩ := by
    dsimp only [s]
    split
    · exact ⟨[], fun _ => List.not_mem_nil, .nil⟩
    · exact run_leaveAll rfl _ _
  obtain ⟨es₂, h₂, hrun₂⟩ := run_hearAll s r.scheduler.stop.1
  have hover := (hrun₁.append hrun₂).snoc .answer
  obtain ⟨es₃, h₃, hrun₃⟩ := run_leaveAll (hover.told rfl) none
    (List.range ((s.hearAll r.scheduler.stop.1).2.endGrace
      (s.hearAll r.scheduler.stop.1).1).2.workers.length)
  refine ⟨_, fun b => ?_, ((Run.snoc .nil .shutdown).append hover).append hrun₃⟩
  have hanswer : (r.shutdown timeout).1 = ((s.hearAll r.scheduler.stop.1).2.endGrace
      (s.hearAll r.scheduler.stop.1).1).1 := rfl
  simp [h₁, h₂, h₃, hanswer]

end Scheduler

end Lineage

namespace Lineage.Sample

open Scheduler

/-! ### A task that panics and one that does not end -/

def panicking : List Scheduler.Event :=
  [.schedule "t" true, .beginRun 0, .endRun 0 .panicked, .beginRun 0]

/-- A scheduler with one worker. -/
def working (phase : Phase) : Scheduler where
  name := "s"
  workers := [{ task := "t", phase }]

theorem run_panicking : Scheduler.Run (start "s") panicking ⟨working .running, none⟩ :=
  .snoc (.snoc (.snoc (.snoc .nil (.accept rfl)) (.beginRun rfl rfl)) (.endRun rfl))
    (.beginRun rfl rfl)

/-- The same scheduler shut down in time: the run that goes on fails, and the worker leaves. -/
theorem truthful_panicking : ∃ m, Scheduler.Run (start "s")
      (panicking ++ [.shutdown, .endRun 0 .failed, .leave 0, .hear, .answer true]) m ∧
    m.scheduler.AllExited ∧
    (∀ es' m', Scheduler.Run m es' m' → m'.scheduler.AllExited ∧ ∀ n, .beginRun n ∉ es') ∧
    ∀ w ∈ (working .running).workers, w.phase ≠ .exited := by
  have hrun : Scheduler.Run (start "s")
      (panicking ++ [.shutdown, .endRun 0 .failed, .leave 0, .hear, .answer true]) _ :=
    .snoc (.snoc (.snoc (.snoc (.snoc run_panicking .shutdown) (.endRun rfl)) (.leave rfl rfl))
      (.hear rfl)) .answer
  obtain ⟨hleft, hlater⟩ := hrun.truthful.1 (by decide) (by decide)
  refine ⟨_, hrun, hleft, fun es' m' h' => ?_, run_panicking.truthful.2.2 (by decide)⟩
  obtain ⟨hall, -, hruns⟩ := hlater es' m' h'
  exact ⟨hall, hruns⟩

/-- A shutdown gives up a task that is running, and the next one answers `true`. -/
theorem shutdown_twice : ∃ m, Scheduler.Run (start "s")
      [.schedule "t" true, .beginRun 0, .shutdown, .answer false, .shutdown, .answer true] m ∧
    m.scheduler.phase? 0 = some .running ∧ ¬ m.scheduler.AllExited := by
  have hbusy : Scheduler.Run (start "s") [.schedule "t" true, .beginRun 0]
      ⟨working .running, none⟩ :=
    .snoc (.snoc .nil (.accept rfl)) (.beginRun rfl rfl)
  have hrun : Scheduler.Run (start "s")
      [.schedule "t" true, .beginRun 0, .shutdown, .answer false, .shutdown, .answer true] _ :=
    .snoc (.snoc (.snoc (.snoc hbusy .shutdown) .answer) .shutdown) .answer
  refine ⟨_, hrun, rfl, fun hall => ?_⟩
  exact absurd (hall _ List.mem_cons_self) (by decide)

end Lineage.Sample
