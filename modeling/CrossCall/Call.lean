import CrossCall.Signal
import CrossCall.Failure

/-!
One call in flight, shared by the caller and the thread that is to run it. How far the call has
come is its phase, read and changed under a lock only. The target starts the callable only if the
caller still waits; the caller marks the call abandoned only after its wait has ended; the lock
puts the two in an order. The callable runs with the lock released. Its outcome is stored and the
signal raised under the lock, so a permit always means an outcome.
-/

namespace CrossCall

inductive Phase (V : Type) where
  /-- In the queue; the caller waits. -/
  | dispatched
  | running
  /-- Done; the value lies ready. -/
  | completed (value : V)
  /-- The callable panicked; the message lies ready. -/
  | panicked (message : String)
  /-- The caller stopped waiting. -/
  | abandoned
  /-- The caller took the outcome. -/
  | settled
  deriving DecidableEq, Inhabited

/-- Nobody has begun the call or given it up. -/
def Phase.isDispatched {V : Type} : Phase V → Bool
  | .dispatched => true
  | _ => false

def Phase.isAbandoned {V : Type} : Phase V → Bool
  | .abandoned => true
  | _ => false

structure Call (V : Type) where
  phase : Phase V := .dispatched
  /-- Who holds the lock of the phase. -/
  holder : Option ThreadId := none
  signal : Signal := {}
  deriving DecidableEq, Inhabited

namespace Call

variable {V : Type}

/-! ### The target's side -/

def enterStep (m : Moment) (c : Call V) : LockPc → Progress (Call V) LockPc Bool
  | .locking =>
    if c.holder.isSome then .blocked else .going { c with holder := some m.self } .holding
  | .holding =>
    if c.phase.isDispatched then
      .finished { c with phase := .running, holder := none } true
    else .finished { c with holder := none } false

/-- The gate before the callable: answers whether it is to be started. -/
def enter : Routine (Call V) Bool where
  Pc := LockPc
  start := .locking
  step := enterStep

def concludeStep (m : Moment) (c : Call V) : LockPc → Progress (Call V) LockPc Bool
  | .locking =>
    if c.holder.isSome then .blocked else .going { c with holder := some m.self } .holding
  | .holding =>
    if c.phase.isAbandoned then .finished { c with holder := none } false
    else .finished c true

/-- After the callable: answers whether the caller still waits for the outcome. If so, the lock
stays taken. -/
def conclude : Routine (Call V) Bool where
  Pc := LockPc
  start := .locking
  step := concludeStep

inductive DeliverPc where
  | storing
  | raising (pc : Signal.RaisePc)
  | releasing
  deriving DecidableEq, Inhabited

/-- The phase of a call that was run. -/
def outcomePhase : Except String V → Phase V
  | .ok value => .completed value
  | .error message => .panicked message

def deliverStep (outcome : Except String V) (m : Moment) (c : Call V) :
    DeliverPc → Progress (Call V) DeliverPc Unit
  | .storing => .going { c with phase := outcomePhase outcome } (.raising .locking)
  | .raising pc =>
    match Signal.raiseStep m c.signal pc with
    | .blocked => .blocked
    | .going s pc => .going { c with signal := s } (.raising pc)
    | .finished s _ => .going { c with signal := s } .releasing
  | .releasing => .finished { c with holder := none } ()

/-- With the lock taken, stores the outcome, raises the signal and releases the lock. -/
def deliver (outcome : Except String V) : Routine (Call V) Unit where
  Pc := DeliverPc
  start := .storing
  step := deliverStep outcome

/-! ### The caller's side -/

inductive CollectPc where
  | waiting (pc : Signal.WaitPc)
  /-- The wait has ended, with or without a permit; about to take the lock. -/
  | locking (signaled : Bool)
  | holding (signaled : Bool)
  deriving DecidableEq, Inhabited

/-- What the caller makes of the phase it finds after it took a permit. -/
def takeOutcome : Phase V → Except InvokeError V
  | .completed value => .ok value
  | .panicked message => .error (.panicked message)
  | _ => .error .timedOut

def collectStep (bound : WaitBound) (m : Moment) (c : Call V) :
    CollectPc → Progress (Call V) CollectPc (Except InvokeError V)
  | .waiting pc =>
    match Signal.waitStep bound m c.signal pc with
    | .blocked => .blocked
    | .going s pc => .going { c with signal := s } (.waiting pc)
    | .finished s signaled => .going { c with signal := s } (.locking signaled)
  | .locking signaled =>
    if c.holder.isSome then .blocked
    else .going { c with holder := some m.self } (.holding signaled)
  | .holding signaled =>
    if signaled then
      .finished { c with phase := .settled, holder := none } (takeOutcome c.phase)
    else .finished { c with phase := .abandoned, holder := none } (.error .timedOut)

def CollectPc.alarm : CollectPc → Option Instant
  | .waiting pc => pc.alarm
  | _ => none

/-- Waits for the outcome within the bound, and gives the call up if there is none. -/
def collect (bound : WaitBound) : Routine (Call V) (Except InvokeError V) where
  Pc := CollectPc
  start := .waiting .arriving
  step := collectStep bound
  alarm := CollectPc.alarm

end Call
end CrossCall
