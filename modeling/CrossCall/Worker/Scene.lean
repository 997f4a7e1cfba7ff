import CrossCall.Concurrent.Reachable
import CrossCall.Worker

/-!
Threads at one worker: any number of threads that hand in items, exit the worker and look at it, and
the worker's own thread, which runs the items. What an item does is left open: while it runs it may
do with the worker what the other threads do, and it ends by itself or by a panic. Threads take
turns in any order. Beside the worker and the threads a scene keeps what has been done.
-/

namespace CrossCall.Worker

inductive Operation (ι : Type) where
  | enqueue (item : ι)
  | exit
  | lookOpen
  | stats
  deriving DecidableEq, Inhabited

/-- Where a thread stands. -/
inductive Stand (ι : Type) where
  | idle
  | enqueuing (item : ι) (pc : EnqueuePc)
  /-- In the first half of an exit. -/
  | closing (pc : LockPc)
  /-- In the second half of an exit. -/
  | joining (pc : JoinPc)
  | looking (pc : LockPc)
  | reading (pc : StatsPc)
  deriving DecidableEq, Inhabited

def Operation.stand {ι : Type} : Operation ι → Stand ι
  | .enqueue item => .enqueuing item .locking
  | .exit => .closing .locking
  | .lookOpen => .looking .locking
  | .stats => .reading .pending

/-- Where the worker's own thread stands. -/
inductive DrainStand (ι : Type) where
  | receiving
  /-- Runs an item, which stands `inside` an operation of its own. -/
  | running (item : ι) (inside : Stand ι)
  | charging (unwound : Bool)
  | settling
  | finishing
  | over
  deriving DecidableEq, Inhabited

/-- What has been done. -/
structure Deeds (ι : Type) where
  /-- The items that were let in, in their order. -/
  accepted : List ι := []
  refused : List ι := []
  /-- The items that the worker has begun to run, in their order. -/
  started : List ι := []
  /-- The items that have ended, and whether they unwound. -/
  ended : List (ι × Bool) := []
  deriving DecidableEq, Inhabited

structure Scene (ι : Type) where
  worker : Worker ι
  threads : List (Stand ι)
  drain : DrainStand ι := .receiving
  deeds : Deeds ι := {}
  deriving Inhabited

inductive Move (ι : Type) where
  /-- A thread that has nothing to do begins an operation. -/
  | begin (t : ThreadId) (operation : Operation ι)
  | step (t : ThreadId)
  /-- The item that runs begins an operation. -/
  | beginInside (operation : Operation ι)
  | stepInside
  /-- The item that runs ends. -/
  | finish (unwound : Bool)
  /-- The worker's own thread goes on, between two items. -/
  | drain
  deriving DecidableEq, Inhabited

namespace Scene

variable {ι : Type}

/-- An atomic step of a thread that stands here, if it can take one: the worker, the thread's stand
and the deeds after it. An exit on the worker's own thread joins nothing. -/
def stepStand (m : Moment) (w : Worker ι) (deeds : Deeds ι) :
    Stand ι → Option (Worker ι × Stand ι × Deeds ι)
  | .idle => none
  | .enqueuing item pc =>
    match enqueueStep item m w pc with
    | .blocked => none
    | .going w .releasing =>
      some (w, .enqueuing item .releasing, { deeds with accepted := deeds.accepted ++ [item] })
    | .going w pc => some (w, .enqueuing item pc, deeds)
    | .finished w (.ok ()) => some (w, .idle, deeds)
    | .finished w (.error _) =>
      some (w, .idle, { deeds with refused := deeds.refused ++ [item] })
  | .closing pc =>
    match closeStep m w pc with
    | .blocked => none
    | .going w pc => some (w, .closing pc, deeds)
    | .finished w _ => some (w, if m.self = w.thread then .idle else .joining .locking, deeds)
  | .joining pc =>
    match joinStep m w pc with
    | .blocked => none
    | .going w pc => some (w, .joining pc, deeds)
    | .finished w _ => some (w, .idle, deeds)
  | .looking pc =>
    match lookOpenStep m w pc with
    | .blocked => none
    | .going w pc => some (w, .looking pc, deeds)
    | .finished w _ => some (w, .idle, deeds)
  | .reading pc =>
    match statsStep m w pc with
    | .blocked => none
    | .going w pc => some (w, .reading pc, deeds)
    | .finished w _ => some (w, .idle, deeds)

/-- A step of the worker's own thread between two items. -/
def stepDrain (s : Scene ι) : DrainStand ι → Option (Scene ι)
  | .receiving =>
    match s.worker.receive with
    | none => none
    | some (none, worker) => some { s with worker, drain := .finishing }
    | some (some item, worker) =>
      some { s with
        worker
        drain := .running item .idle
        deeds := { s.deeds with started := s.deeds.started ++ [item] } }
  | .running _ _ => none
  | .charging unwound => some { s with worker := s.worker.charge unwound, drain := .settling }
  | .settling => some { s with worker := s.worker.settle, drain := .receiving }
  | .finishing => some { s with worker := s.worker.finish, drain := .over }
  | .over => none

def move (s : Scene ι) : Move ι → Option (Scene ι)
  | .begin t operation =>
    match s.threads[t]? with
    | some .idle => some { s with threads := s.threads.set t operation.stand }
    | _ => none
  | .step t => do
    let (worker, stand, deeds) ← stepStand ⟨t, 0, false, 0⟩ s.worker s.deeds (← s.threads[t]?)
    some { s with worker, threads := s.threads.set t stand, deeds }
  | .beginInside operation =>
    match s.drain with
    | .running item .idle => some { s with drain := .running item operation.stand }
    | _ => none
  | .stepInside =>
    match s.drain with
    | .running item inside => do
      let (worker, inside, deeds) ←
        stepStand ⟨s.worker.thread, 0, false, 0⟩ s.worker s.deeds inside
      some { s with worker, drain := .running item inside, deeds }
    | _ => none
  | .finish unwound =>
    match s.drain with
    | .running item .idle =>
      some { s with
        drain := .charging unwound
        deeds := { s.deeds with ended := s.deeds.ended ++ [(item, unwound)] } }
    | _ => none
  | .drain => s.stepDrain s.drain

/-- A new worker with a thread of its own, and threads that have nothing to do. -/
def isStart (s : Scene ι) : Prop :=
  (∃ name thread, s.worker = { name, thread } ∧ s.threads.length ≤ thread) ∧
    (∀ stand ∈ s.threads, stand = .idle) ∧ s.drain = .receiving ∧ s.deeds = {}

/-- However the threads have taken turns. -/
def Reachable : Scene ι → Prop := CrossCall.Reachable move isStart

end Scene
end CrossCall.Worker
