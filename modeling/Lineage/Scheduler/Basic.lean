/-!
# Schedulers

A scheduler has a worker for each task, which waits, runs the task, and waits again, however the run
ends. Shutting down tells all workers to leave, waits for some time to hear from each that it does,
and then gives all of them up.
-/

namespace Lineage

/-- What a worker is at. -/
inductive Phase where
  | waiting
  | running
  | exited
  deriving DecidableEq, Repr

/-- How a run of a task ends. -/
inductive Outcome where
  | succeeded
  | failed
  | panicked
  deriving DecidableEq, Repr

structure Worker where
  task : String
  phase : Phase := .waiting
  /-- Whether shutting down gave the worker up. It is not waited for any more. -/
  detached : Bool := false
  deriving DecidableEq, Repr

structure Scheduler where
  name : String
  /-- All workers there ever were. -/
  workers : List Worker := []
  stopped : Bool := false
  /-- How many workers said that they leave and were not heard yet. -/
  unheard : Nat := 0
  deriving DecidableEq, Repr

namespace Scheduler

/-- A task cannot be scheduled once the scheduler is shut down. -/
structure ShutDown where
  scheduler : String
  deriving DecidableEq, Repr

def ShutDown.message (e : ShutDown) : String := s!"scheduler {e.scheduler} is shut down"

/-- Starts a worker for a task. -/
def schedule (s : Scheduler) (task : String) : Except ShutDown Scheduler :=
  if s.stopped then .error ⟨s.name⟩ else .ok { s with workers := s.workers ++ [{ task }] }

/-- What the worker with a number is at. -/
def phase? (s : Scheduler) (n : Nat) : Option Phase := s.workers[n]?.map Worker.phase

/-- Puts the worker with a number into a phase. -/
def setPhase (s : Scheduler) (n : Nat) (p : Phase) : Scheduler :=
  { s with workers := s.workers.modify n ({ · with phase := p }) }

/-- A waiting worker begins to run its task, unless it was told to leave. -/
def beginRun (s : Scheduler) (n : Nat) : Scheduler :=
  if s.stopped = false ∧ s.phase? n = some .waiting then s.setPhase n .running else s

/-- A run ends. How it does makes no difference: the worker waits again. -/
def endRun (s : Scheduler) (n : Nat) (_ : Outcome) : Scheduler :=
  if s.phase? n = some .running then s.setPhase n .waiting else s

/-- A waiting worker that was told to leave does so, and says it. -/
def leave (s : Scheduler) (n : Nat) : Scheduler :=
  if s.stopped = true ∧ s.phase? n = some .waiting then
    { s.setPhase n .exited with unheard := s.unheard + 1 }
  else s

/-! ## Shutting down -/

/-- Tells all workers to leave. Also tells how many of them are to be waited for. -/
def stop (s : Scheduler) : Nat × Scheduler :=
  (s.workers.countP (!·.detached), { s with stopped := true })

/-- Hears one worker say that it leaves. -/
def hear (s : Scheduler) : Option Scheduler :=
  match s.unheard with
  | 0 => none
  | k + 1 => some { s with unheard := k }

/-- Hears what was said so far, until no worker is waited for. Tells how many still are. -/
def hearAll (s : Scheduler) : (pending : Nat) → Nat × Scheduler
  | 0 => (0, s)
  | pending + 1 =>
    match s.hear with
    | none => (pending + 1, s)
    | some s => s.hearAll pending

/-- The end of the time given to the workers: tells whether none is waited for any more, and gives
all of them up. -/
def endGrace (s : Scheduler) (pending : Nat) : Bool × Scheduler :=
  (pending = 0, { s with workers := s.workers.map ({ · with detached := true }) })

end Scheduler

end Lineage
