import CrossCall.Concurrent.Reachable
import CrossCall.Signal

/-!
Threads at one signal. A thread that has nothing to do may begin any operation; one that is in an
operation goes on with it by one atomic step. Threads and clock take turns in any order. Beside the
signal and the threads a scene keeps what has been done.
-/

namespace CrossCall.Signal

inductive Operation where
  | raise
  | wait (bound : WaitBound)
  | reset
  | pending
  deriving DecidableEq, Inhabited

/-- Where a thread stands. -/
inductive Stand where
  | idle
  | raising (pc : RaisePc)
  /-- `since` is the time at which the wait began, once the wait has read the clock. -/
  | waiting (bound : WaitBound) (since : Option Instant) (pc : WaitPc)
  | resetting (pc : LockPc)
  | asking (pc : LockPc)
  deriving DecidableEq, Inhabited

def Operation.stand : Operation → Stand
  | .raise => .raising .locking
  | .wait bound => .waiting bound none .arriving
  | .reset => .resetting .locking
  | .pending => .asking .locking

/-- What the threads have done. -/
structure Deeds where
  begun : List Operation := []
  /-- Raises that left a permit. -/
  raised : Nat := 0
  /-- Raises that found the count full. -/
  lost : Nat := 0
  /-- Waits that have taken a permit. -/
  taken : Nat := 0
  /-- Waits that have ended without a permit. -/
  missed : Nat := 0
  /-- Permits that resets have dropped. -/
  cleared : Nat := 0
  deriving DecidableEq, Inhabited

namespace Deeds

/-- A raise has found so many permits. -/
def raise (d : Deeds) (permits : Nat) : Deeds :=
  if permits < capacity then { d with raised := d.raised + 1 } else { d with lost := d.lost + 1 }

/-- A wait has ended. -/
def wait (d : Deeds) (woke : Bool) : Deeds :=
  if woke then { d with taken := d.taken + 1 } else { d with missed := d.missed + 1 }

/-- A reset has dropped so many permits. -/
def reset (d : Deeds) (permits : Nat) : Deeds := { d with cleared := d.cleared + permits }

end Deeds

structure Scene where
  now : Instant := 0
  signal : Signal := {}
  threads : List Stand
  deeds : Deeds := {}
  deriving DecidableEq, Inhabited

inductive Move where
  /-- A thread that has nothing to do begins an operation. -/
  | begin (t : ThreadId) (operation : Operation)
  | step (t : ThreadId) (stray : Bool) (pick : Nat)
  | tick (later : Instant)
  deriving DecidableEq, Inhabited

namespace Scene

/-- Thread `t` leaves the signal like this and stands here now. -/
def put (s : Scene) (t : ThreadId) (signal : Signal) (stand : Stand) : Scene :=
  { s with signal, threads := s.threads.set t stand }

/-- An atomic step of the thread that stands here, if it can take one. -/
def step (s : Scene) (m : Moment) : Stand → Option Scene
  | .idle => none
  | .raising pc =>
    let deeds := if pc = .adding then s.deeds.raise s.signal.permits else s.deeds
    match raiseStep m s.signal pc with
    | .blocked => none
    | .going signal pc => some { s.put m.self signal (.raising pc) with deeds }
    | .finished signal _ => some { s.put m.self signal .idle with deeds }
  | .waiting bound since pc =>
    match waitStep bound m s.signal pc with
    | .blocked => none
    | .going signal pc => some (s.put m.self signal (.waiting bound (since.getD m.now) pc))
    | .finished signal woke =>
      some { s.put m.self signal .idle with deeds := s.deeds.wait woke }
  | .resetting pc =>
    match accessStep (fun _ => 0) m s.signal pc with
    | .blocked => none
    | .going signal pc => some (s.put m.self signal (.resetting pc))
    | .finished signal permits =>
      some { s.put m.self signal .idle with deeds := s.deeds.reset permits }
  | .asking pc =>
    match accessStep id m s.signal pc with
    | .blocked => none
    | .going signal pc => some (s.put m.self signal (.asking pc))
    | .finished signal _ => some (s.put m.self signal .idle)

def move (s : Scene) : Move → Option Scene
  | .begin t operation =>
    if s.threads[t]? = some .idle then
      some { s with
        threads := s.threads.set t operation.stand
        deeds := { s.deeds with begun := operation :: s.deeds.begun } }
    else none
  | .step t stray pick => s.threads[t]?.bind (s.step ⟨t, s.now, stray, pick⟩)
  | .tick later => some { s with now := max s.now later }

/-- A new signal, and threads that have nothing to do. -/
def isStart (s : Scene) : Prop :=
  s.signal = {} ∧ s.deeds = {} ∧ ∀ stand ∈ s.threads, stand = .idle

/-- However the threads have taken turns. -/
def Reachable : Scene → Prop := CrossCall.Reachable move isStart

end Scene
end CrossCall.Signal
