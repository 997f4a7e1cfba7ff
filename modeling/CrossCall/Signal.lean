import CrossCall.Concurrent.Routine

/-!
A counting signal. A raise leaves a permit and then wakes one of the parked threads; a wait takes a
permit, or parks until it is woken or its deadline passes, and looks again. The count is read and
changed under a lock only, and the notification is sent after the lock is released, so a thread
that comes by may take the permit of a thread that was woken for it.
-/

namespace CrossCall

structure Signal where
  permits : Nat := 0
  /-- Who holds the lock of the count. -/
  holder : Option ThreadId := none
  /-- Who waits to be woken, the longest waiting first. -/
  parked : List ThreadId := []
  /-- Who was woken by a notification and has not noticed yet. -/
  notified : List ThreadId := []
  deriving DecidableEq, Inhabited

namespace Signal

/-- The most permits a signal counts. -/
def capacity : Nat := 18_446_744_073_709_551_615

/-- Another permit, unless the count is full. -/
def addPermit (n : Nat) : Nat := min (n + 1) capacity

/-! ### Raising -/

inductive RaisePc where
  | locking
  | adding
  | notifying
  deriving DecidableEq, Inhabited

/-- Wakes one parked thread, if there is one. -/
def notifyOne (s : Signal) (pick : Nat) : Signal :=
  match s.parked[pick % s.parked.length]? with
  | none => s
  | some t => { s with parked := s.parked.erase t, notified := s.notified ++ [t] }

def raiseStep (m : Moment) (s : Signal) : RaisePc → Progress Signal RaisePc Unit
  | .locking =>
    if s.holder.isSome then .blocked else .going { s with holder := some m.self } .adding
  | .adding =>
    .going { s with permits := addPermit s.permits, holder := none } .notifying
  | .notifying => .finished (s.notifyOne m.pick) ()

def raise : Routine Signal Unit where
  Pc := RaisePc
  start := .locking
  step := raiseStep

/-! ### Waiting -/

/-- What brings a waiting thread to the lock. -/
inductive Cause where
  /-- It has only just come. -/
  | arrival
  | notification
  /-- It woke although nothing woke it. -/
  | stray
  /-- Its deadline has passed. -/
  | expiry
  deriving DecidableEq, Inhabited

inductive WaitPc where
  /-- About to read the clock. -/
  | arriving
  /-- About to take the lock. -/
  | locking (deadline : Option Instant) (cause : Cause)
  /-- Holds the lock and looks at the count. -/
  | looking (deadline : Option Instant) (cause : Cause)
  | parked (deadline : Option Instant)
  deriving DecidableEq, Inhabited

def waitStep (bound : WaitBound) (m : Moment) (s : Signal) :
    WaitPc → Progress Signal WaitPc Bool
  | .arriving => .going s (.locking (bound.deadline m.now) .arrival)
  | .locking deadline cause =>
    if s.holder.isSome then .blocked
    else .going { s with holder := some m.self } (.looking deadline cause)
  | .looking deadline cause =>
    if 0 < s.permits then .finished { s with permits := s.permits - 1, holder := none } true
    else if cause = .expiry then .finished { s with holder := none } false
    else .going { s with holder := none, parked := s.parked ++ [m.self] } (.parked deadline)
  | .parked deadline =>
    if m.self ∈ s.notified then
      .going { s with notified := s.notified.erase m.self } (.locking deadline .notification)
    else if deadline.any (· ≤ m.now) then
      .going { s with parked := s.parked.erase m.self } (.locking deadline .expiry)
    else if m.stray then
      .going { s with parked := s.parked.erase m.self } (.locking deadline .stray)
    else .blocked

def WaitPc.alarm : WaitPc → Option Instant
  | .parked deadline => deadline
  | _ => none

/-- Answers whether a permit was taken. -/
def wait (bound : WaitBound) : Routine Signal Bool where
  Pc := WaitPc
  start := .arriving
  step := waitStep bound
  alarm := WaitPc.alarm

/-! ### Looking and clearing -/

def accessStep (f : Nat → Nat) (m : Moment) (s : Signal) :
    LockPc → Progress Signal LockPc Nat
  | .locking =>
    if s.holder.isSome then .blocked else .going { s with holder := some m.self } .holding
  | .holding => .finished { s with permits := f s.permits, holder := none } s.permits

/-- Looks at the count under the lock and leaves it as `f` says. -/
def access (f : Nat → Nat) : Routine Signal Nat where
  Pc := LockPc
  start := .locking
  step := accessStep f

def pending : Routine Signal Nat := access id

/-- Drops every permit and answers how many there were. -/
def reset : Routine Signal Nat := access fun _ => 0

end Signal
end CrossCall
