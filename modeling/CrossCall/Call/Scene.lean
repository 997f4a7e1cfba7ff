import CrossCall.Call
import CrossCall.Concurrent.Reachable

/-!
Calls under way. Each call has a caller of its own, who first hands an item to a queue and then, if
the queue accepts it, waits. A queue may run the item at any time from then on, in any thread, or
drop it, and in a strict scene it runs an item once; before it refuses an item it is done with it.
A run of an item is an attempt at the call. What the callable does is left open: an attempt in
which it runs ends with any result.
-/

namespace CrossCall.Call

/-- What a queue gets for a call, the arguments as they were when the call was made. -/
structure Envelope (A : Type) where
  call : Nat
  args : A
  deriving DecidableEq, Inhabited

/-- Where the caller stands. -/
inductive CallerStand (V : Type) where
  /-- The queue has not answered. -/
  | handing
  /-- `since` is the time at which the wait began, once the wait has read the clock. -/
  | collecting (since : Option Instant) (pc : CollectPc)
  | returned (outcome : Except InvokeError V)
  deriving Inhabited

/-- Where an attempt stands. -/
inductive TargetStand (V : Type) where
  | entering (pc : LockPc)
  | running
  /-- The callable has ended, by itself or by a panic. -/
  | concluding (result : Except Payload V) (pc : LockPc)
  | delivering (result : Except Payload V) (pc : DeliverPc)
  /-- How the callable ended, if it was run. -/
  | over (result : Option (Except Payload V))
  deriving Inhabited

structure Party (A V : Type) where
  thread : ThreadId
  args : A
  bound : WaitBound
  call : Call V := {}
  caller : CallerStand V := .handing
  deriving Inhabited

structure Attempt (A V : Type) where
  thread : ThreadId
  envelope : Envelope A
  stand : TargetStand V := .entering .locking
  deriving Inhabited

structure Scene (A V : Type) where
  /-- Whether the queues run an item once. -/
  strict : Bool
  now : Instant := 0
  parties : List (Party A V) := []
  /-- What the queues keep. -/
  items : List (Envelope A) := []
  attempts : List (Attempt A V) := []
  deriving Inhabited

inductive Move (A V : Type) where
  /-- A thread makes a call that goes to a queue. -/
  | launch (t : ThreadId) (args : A) (bound : WaitBound)
  | accept (call : Nat)
  | refuse (call : Nat) (error : DispatchError)
  /-- A thread begins to run an item of a queue, which may keep it. -/
  | take (t : ThreadId) (item : Nat) (keep : Bool)
  | drop (item : Nat)
  | stepCaller (call : Nat) (stray : Bool)
  | stepAttempt (attempt : Nat) (pick : Nat)
  /-- The callable ends. -/
  | finish (attempt : Nat) (result : Except Payload V)
  | tick (later : Instant)

/-- Whether the callable has been started. -/
def TargetStand.hasStarted {V : Type} : TargetStand V → Bool
  | .entering _ | .over none => false
  | _ => true

def TargetStand.isOver {V : Type} : TargetStand V → Bool
  | .over _ => true
  | _ => false

namespace Scene

variable {A V : Type}

/-- The caller of call `i` now stands here. -/
def putCaller (s : Scene A V) (i : Nat) (caller : CallerStand V) : Scene A V :=
  { s with parties := s.parties.modify i fun p => { p with caller } }

/-- Call `i` now is in this state. -/
def putCall (s : Scene A V) (i : Nat) (call : Call V) : Scene A V :=
  { s with parties := s.parties.modify i fun p => { p with call } }

/-- Attempt `k` now stands here. -/
def putAttempt (s : Scene A V) (k : Nat) (stand : TargetStand V) : Scene A V :=
  { s with attempts := s.attempts.modify k fun a => { a with stand } }

/-- Nothing that was handed in for call `i` is left or still runs. -/
def isDoneWith (s : Scene A V) (i : Nat) : Bool :=
  s.items.all (·.call ≠ i) && s.attempts.all fun a => a.envelope.call ≠ i || a.stand.isOver

/-- An atomic step of a caller who waits. -/
def stepCaller (s : Scene A V) (i : Nat) (m : Moment) (p : Party A V) : Option (Scene A V) :=
  match p.caller with
  | .collecting since pc =>
    match collectStep p.bound m p.call pc with
    | .blocked => none
    | .going call pc => some ((s.putCall i call).putCaller i (.collecting (since.getD m.now) pc))
    | .finished call outcome => some ((s.putCall i call).putCaller i (.returned outcome))
  | _ => none

/-- An atomic step of an attempt at a call; none while the callable runs. -/
def stepAttempt (s : Scene A V) (k : Nat) (m : Moment) (i : Nat) (call : Call V) :
    TargetStand V → Option (Scene A V)
  | .entering pc =>
    match enterStep m call pc with
    | .blocked => none
    | .going call pc => some ((s.putCall i call).putAttempt k (.entering pc))
    | .finished call true => some ((s.putCall i call).putAttempt k .running)
    | .finished call false => some ((s.putCall i call).putAttempt k (.over none))
  | .running => none
  | .concluding result pc =>
    match concludeStep m call pc with
    | .blocked => none
    | .going call pc => some ((s.putCall i call).putAttempt k (.concluding result pc))
    | .finished call true => some ((s.putCall i call).putAttempt k (.delivering result .storing))
    | .finished call false => some ((s.putCall i call).putAttempt k (.over (some result)))
  | .delivering result pc =>
    match deliverStep (result.mapError Payload.message) m call pc with
    | .blocked => none
    | .going call pc => some ((s.putCall i call).putAttempt k (.delivering result pc))
    | .finished call _ => some ((s.putCall i call).putAttempt k (.over (some result)))
  | .over _ => none

def move (s : Scene A V) : Move A V → Option (Scene A V)
  | .launch thread args bound =>
    some { s with
      parties := s.parties ++ [{ thread, args, bound }]
      items := s.items ++ [⟨s.parties.length, args⟩] }
  | .accept i =>
    match (s.parties[i]?).map Party.caller with
    | some .handing => some (s.putCaller i (.collecting none (.waiting .arriving)))
    | _ => none
  | .refuse i error =>
    match (s.parties[i]?).map Party.caller with
    | some .handing =>
      if s.isDoneWith i then some (s.putCaller i (.returned (.error (.dispatch error)))) else none
    | _ => none
  | .take thread k keep => do
    let envelope ← s.items[k]?
    if s.strict && keep then none
    else some { s with
      items := if keep then s.items else s.items.eraseIdx k
      attempts := s.attempts ++ [{ thread, envelope }] }
  | .drop k => if k < s.items.length then some { s with items := s.items.eraseIdx k } else none
  | .stepCaller i stray => do
    let p ← s.parties[i]?
    s.stepCaller i ⟨p.thread, s.now, stray, 0⟩ p
  | .stepAttempt k pick => do
    let a ← s.attempts[k]?
    let p ← s.parties[a.envelope.call]?
    s.stepAttempt k ⟨a.thread, s.now, false, pick⟩ a.envelope.call p.call a.stand
  | .finish k result =>
    match (s.attempts[k]?).map Attempt.stand with
    | some .running => some (s.putAttempt k (.concluding result .locking))
    | _ => none
  | .tick later => some { s with now := max s.now later }

/-- Nobody has made a call. -/
def isStart (s : Scene A V) : Prop := s.parties = [] ∧ s.items = [] ∧ s.attempts = []

/-- However callers, queues and attempts have taken turns. -/
def Reachable : Scene A V → Prop := CrossCall.Reachable move isStart

end Scene
end CrossCall.Call
