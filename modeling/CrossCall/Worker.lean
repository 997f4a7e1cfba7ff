import CrossCall.Concurrent.Routine
import CrossCall.Failure

/-!
A worker: one thread that runs the items handed to it, in the order in which they were accepted.
Handing in an item and closing the worker pass through one lock, so an accepted item stands before
the close. After the close the thread runs what was accepted and ends. Three counters, each changed
by itself, say how many items are pending, returned and panicked; an item is pending until its
outcome has been counted. The counters are words of 64 bits and wrap around.
-/

namespace CrossCall

structure Worker (ι : Type) where
  name : String
  /-- The thread that runs the items. -/
  thread : ThreadId
  isOpen : Bool := true
  /-- Who holds the lock of the entrance. -/
  entrance : Option ThreadId := none
  /-- Accepted and not yet taken, the oldest first. -/
  items : List ι := []
  pending : UInt64 := 0
  executed : UInt64 := 0
  panicked : UInt64 := 0
  /-- The thread has left its loop, and nobody takes items any more. -/
  ended : Bool := false
  /-- Nobody has taken over the joining of the thread. -/
  joinable : Bool := true
  /-- Who holds the lock of `joinable`. -/
  joinHolder : Option ThreadId := none
  deriving Inhabited

structure WorkerStats where
  pending : UInt64
  executed : UInt64
  panicked : UInt64
  deriving DecidableEq, Inhabited

namespace Worker

variable {ι : Type}

/-! ### Handing in items -/

inductive EnqueuePc where
  | locking
  | checking
  | sending
  | rollingBack
  | releasing
  deriving DecidableEq, Inhabited

def enqueueStep (item : ι) (m : Moment) (w : Worker ι) :
    EnqueuePc → Progress (Worker ι) EnqueuePc (Except DispatchError Unit)
  | .locking =>
    if w.entrance.isSome then .blocked else .going { w with entrance := some m.self } .checking
  | .checking =>
    if w.isOpen then .going { w with pending := w.pending + 1 } .sending
    else .finished { w with entrance := none } (.error .closed)
  | .sending =>
    if w.ended then .going w .rollingBack
    else .going { w with items := w.items ++ [item] } .releasing
  | .rollingBack =>
    .finished { w with pending := w.pending - 1, entrance := none } (.error .closed)
  | .releasing => .finished { w with entrance := none } (.ok ())

/-- Hands in an item; the item counts as pending before the thread can see it. -/
def enqueue (item : ι) : Routine (Worker ι) (Except DispatchError Unit) where
  Pc := EnqueuePc
  start := .locking
  step := enqueueStep item

/-! ### Closing and joining -/

def closeStep (m : Moment) (w : Worker ι) : LockPc → Progress (Worker ι) LockPc Bool
  | .locking =>
    if w.entrance.isSome then .blocked else .going { w with entrance := some m.self } .holding
  | .holding => .finished { w with isOpen := false, entrance := none } w.isOpen

/-- Lets no more items in, and answers whether it did so before. -/
def close : Routine (Worker ι) Bool where
  Pc := LockPc
  start := .locking
  step := closeStep

def lookOpenStep (m : Moment) (w : Worker ι) : LockPc → Progress (Worker ι) LockPc Bool
  | .locking =>
    if w.entrance.isSome then .blocked else .going { w with entrance := some m.self } .holding
  | .holding => .finished { w with entrance := none } w.isOpen

/-- Answers whether items are still let in. -/
def lookOpen : Routine (Worker ι) Bool where
  Pc := LockPc
  start := .locking
  step := lookOpenStep

inductive JoinPc where
  | locking
  | taking
  | joining
  deriving DecidableEq, Inhabited

def joinStep (m : Moment) (w : Worker ι) : JoinPc → Progress (Worker ι) JoinPc Unit
  | .locking =>
    if w.joinHolder.isSome then .blocked else .going { w with joinHolder := some m.self } .taking
  | .taking =>
    if w.joinable then .going { w with joinable := false, joinHolder := none } .joining
    else .finished { w with joinHolder := none } ()
  | .joining => if w.ended then .finished w () else .blocked

/-- Takes over the joining of the thread and waits until it has ended; whoever comes second finds
nothing to join. -/
def join : Routine (Worker ι) Unit where
  Pc := JoinPc
  start := .locking
  step := joinStep

/-! ### The thread of the worker -/

/-- The next item, once there is one; nothing when all are taken and no more are let in. -/
def receive (w : Worker ι) : Option (Option ι × Worker ι) :=
  match w.items with
  | item :: rest => some (some item, { w with items := rest })
  | [] => if w.isOpen then none else some (none, w)

/-- Counts the outcome of the item that was run. -/
def charge (unwound : Bool) (w : Worker ι) : Worker ι :=
  if unwound then { w with panicked := w.panicked + 1 } else { w with executed := w.executed + 1 }

/-- The item that was run is no longer pending. -/
def settle (w : Worker ι) : Worker ι := { w with pending := w.pending - 1 }

def finish (w : Worker ι) : Worker ι := { w with ended := true }

/-! ### Reading the counters -/

inductive StatsPc where
  | pending
  | executed (pending : UInt64)
  | panicked (pending executed : UInt64)
  deriving DecidableEq, Inhabited

def statsStep (_ : Moment) (w : Worker ι) : StatsPc → Progress (Worker ι) StatsPc WorkerStats
  | .pending => .going w (.executed w.pending)
  | .executed p => .going w (.panicked p w.executed)
  | .panicked p e => .finished w ⟨p, e, w.panicked⟩

/-- Reads the counters one after another. -/
def stats : Routine (Worker ι) WorkerStats where
  Pc := StatsPc
  start := .pending
  step := statsStep

end Worker
end CrossCall
