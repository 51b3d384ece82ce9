import Std.Data.ExtTreeMap
import Lineage.Scheduler.Basic

/-!
# Rehearsals

A rehearsal runs a scheduler on a clock of its own, with tasks whose behaviour is given in advance.
A run takes a short time, the same for all, unless it blocks and lasts until it is released.
-/

namespace Lineage

/-- What one run of a task does. -/
inductive Behaviour where
  | succeed
  | fail
  | panicText
  | panicString
  | panicOther
  /-- Wait to be released, then succeed. -/
  | block
  deriving DecidableEq, Repr

def Behaviour.outcome : Behaviour → Outcome
  | .succeed | .block => .succeeded
  | .fail => .failed
  | .panicText | .panicString | .panicOther => .panicked

/-- What a worker is to do, and when next. Times are in microseconds. -/
structure Part where
  task : String
  delay : Nat
  /-- The behaviour of the first runs; later ones succeed. -/
  script : List Behaviour
  due : Nat
  deriving DecidableEq, Repr

structure Rehearsal where
  scheduler : Scheduler
  /-- The clock, in microseconds. -/
  now : Nat := 0
  /-- The parts of the workers, in their order. -/
  parts : List Part := []
  /-- How many runs have begun, by task. -/
  begun : Std.ExtTreeMap String Nat := ∅
  /-- The runs that a script told how to do, by task. -/
  scripted : Std.ExtTreeMap String (List Behaviour) := ∅
  released : Bool := false

namespace Rehearsal

/-- How many microseconds a run takes that does not block. Since it takes some, tasks without any
delay leave others their turn. -/
def runTime : Nat := 10

/-- How many microseconds a wait lasts at most. -/
def patience : Nat := 10_000_000

def runs (r : Rehearsal) (task : String) : Nat := r.begun.getD task 0

/-- The first runs of a task, as far as a script told how to do them. -/
def did (r : Rehearsal) (task : String) (n : Nat) : List Behaviour :=
  (r.scripted.getD task []).take n

/-- Schedules a task whose delays are given in milliseconds. -/
def schedule (r : Rehearsal) (task : String) (initial delay : Nat) (script : List Behaviour) :
    Except Scheduler.ShutDown Rehearsal := do
  let s ← r.scheduler.schedule task
  let part : Part := ⟨task, 1000 * delay, script, r.now + 1000 * initial⟩
  return { r with scheduler := s, parts := r.parts ++ [part] }

def phase? (r : Rehearsal) (n : Nat) : Option Phase := r.scheduler.phase? n

/-- Ends the run of a worker, which is due again after its delay or leaves if it was told to. A run
that did not block ends by the time the next one can be due. -/
def finish (r : Rehearsal) (n : Nat) (o : Outcome) : Rehearsal :=
  { r with
    scheduler := (r.scheduler.endRun n o).leave n
    parts := r.parts.modify n fun p => { p with due := r.now + runTime + p.delay } }

/-- A worker runs its task once; a run that blocks does not end. -/
def run (r : Rehearsal) (n : Nat) (p : Part) : Rehearsal :=
  let count := r.runs p.task
  let r := { r with
    now := max r.now p.due
    scheduler := r.scheduler.beginRun n
    begun := r.begun.insert p.task (count + 1) }
  match p.script[count]? with
  | none => r.finish n .succeeded
  | some b =>
    let r := { r with
      scripted := r.scripted.insert p.task (r.scripted.getD p.task [] ++ [b]) }
    if b = .block ∧ !r.released then r else r.finish n b.outcome

/-- The worker whose wait is over first. -/
def nextDue (r : Rehearsal) : Option (Nat × Part) :=
  if r.scheduler.stopped then none
  else
    let waiting := (r.parts.zipIdx.map Prod.swap).filter fun e => r.phase? e.1 = some .waiting
    waiting.foldl (fun best e =>
      match best with
      | none => some e
      | some b => if e.2.due < b.2.due then some e else some b) none

/-- Lets time pass until a task has begun so many runs, up to a deadline and a number of runs in
all. Tells whether it has. -/
def waitUntil (task : String) (target deadline : Nat) : (left : Nat) → Rehearsal → Bool × Rehearsal
  | left, r =>
    if target ≤ r.runs task then (true, r)
    else match left, r.nextDue with
      | left + 1, some (n, p) =>
        if p.due ≤ deadline then waitUntil task target deadline left (r.run n p)
        else (false, { r with now := deadline })
      | _, _ => (false, { r with now := deadline })

/-- How many runs begin within the time of a wait at most. -/
def runLimit (r : Rehearsal) : Nat := r.parts.length * (patience / runTime + 2)

def wait (r : Rehearsal) (task : String) (target : Nat) : Bool × Rehearsal :=
  waitUntil task target (r.now + patience) r.runLimit r

/-- Lets the blocked runs end, and those to come not block. -/
def release (r : Rehearsal) : Rehearsal :=
  (List.range r.parts.length).foldl
    (fun r n => if r.phase? n = some .running then r.finish n .succeeded else r)
    { r with released := true }

/-- Shuts the scheduler down, with a limit in milliseconds. Workers that wait leave within any time
at all, those that are blocked do not. -/
def shutdown (r : Rehearsal) (timeout : Nat) : Bool × Rehearsal :=
  let leaveAll := fun (s : Scheduler) => (List.range s.workers.length).foldl Scheduler.leave s
  let (pending, s) := r.scheduler.stop
  let s := if timeout = 0 then s else leaveAll s
  let (pending, s) := s.hearAll pending
  let (ended, s) := s.endGrace pending
  (ended, { r with
    scheduler := leaveAll s
    now := if ended then r.now else r.now + 1000 * timeout })

end Rehearsal

end Lineage
