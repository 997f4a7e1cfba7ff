/-!
Queues: where a call may be handed to. Most run, refuse or keep an item by themselves; a worker runs
it on its own thread.
-/

namespace CrossCall

inductive QueueKind where
  /-- Runs the item at once, in the caller's thread. -/
  | inline
  /-- As `inline`, and says of every thread that it drains the queue. -/
  | current
  | closed
  /-- Runs the item, then refuses it. -/
  | runThenRefuse
  /-- Accepts the item and drops it. -/
  | discard
  /-- Refuses because its thread cannot be started. -/
  | spawnFail (text : String)
  /-- Keeps the items on a shelf. -/
  | parked (shelf : Nat)
  /-- Starts a thread for the item, and returns once it has ended or waits before the closed gate. -/
  | handoff (line : Nat) (gate : String)
  | worker (worker : Nat)
  deriving DecidableEq, Inhabited

/-- A handle of a queue; two handles are of the same queue if their numbers agree. -/
structure Queue where
  number : Nat
  name : String
  kind : QueueKind
  deriving DecidableEq, Inhabited

/-- What goes with the last handle of its queue. -/
inductive Handle where
  /-- The worker is exited. -/
  | worker (worker : Nat)
  /-- The items of the shelf are dropped. -/
  | shelf (shelf : Nat)
  deriving DecidableEq, Inhabited

/-- What a handle of the queue keeps alive. -/
def Queue.handles (q : Queue) : List Handle :=
  match q.kind with
  | .worker w => [.worker w]
  | .parked s => [.shelf s]
  | _ => []

end CrossCall
