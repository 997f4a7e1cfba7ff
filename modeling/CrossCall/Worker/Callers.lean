import CrossCall.Call.Scene
import CrossCall.Worker.Scene

/-!
Calls that go to one worker, among other items that are posted to it. The scene is that of the
worker and that of the calls, side by side: they move together where a caller hands in the item of
its call, where the worker answers and where the worker begins and ends to run the item, and else
each by itself. A thread makes one call at a time.
-/

namespace CrossCall.Worker

/-- What the worker runs. -/
inductive Job (A : Type) where
  | call (envelope : Call.Envelope A)
  /-- Anything else that was posted. -/
  | posted (number : Nat)
  deriving DecidableEq, Inhabited

structure Callers (A V : Type) where
  office : Scene (Job A)
  traffic : Call.Scene A V

namespace Callers

variable {A V : Type}

inductive Move (A V : Type) where
  /-- A thread makes a call. -/
  | call (t : ThreadId) (args : A) (bound : WaitBound)
  /-- A thread posts something else. -/
  | post (t : ThreadId) (number : Nat)
  | exit (t : ThreadId)
  /-- A thread goes on in what it does with the worker. -/
  | step (t : ThreadId)
  /-- The item that runs posts something. -/
  | postInside (number : Nat)
  | exitInside
  | stepInside
  /-- A posted item ends. -/
  | finish (unwound : Bool)
  | drain
  /-- A caller who waits goes on. -/
  | stepCaller (call : Nat) (stray : Bool)
  /-- The worker goes on in the call that it runs. -/
  | stepAttempt (pick : Nat)
  /-- The callable of the call that the worker runs ends. -/
  | finishCallable (result : Except Payload V)
  | tick (later : Instant)

/-- Whether thread `t` waits for no call. -/
def isFree (s : Callers A V) (t : ThreadId) : Bool :=
  s.traffic.parties.all fun p => p.thread ≠ t || p.caller matches .returned _

/-- The call that thread `t` hands in, and whether the worker's answer, which comes with the next
step if it comes then, lets it in. -/
def handing (s : Callers A V) (t : ThreadId) : Option (Nat × Bool) :=
  match s.office.threads[t]? with
  | some (.enqueuing (.call envelope) pc) => some (envelope.call, pc matches .releasing)
  | _ => none

/-- The position of a call's item among those that are not yet run. -/
def itemOf (s : Callers A V) (call : Nat) : Nat :=
  s.traffic.items.findIdx (·.call = call)

/-- The attempt at the call that the worker runs: the last one. -/
def attempt (s : Callers A V) : Nat := s.traffic.attempts.length - 1

def runsCall (s : Callers A V) : Bool :=
  match s.office.drain with
  | .running (.call _) _ => true
  | _ => false

/-- Whether the callable of the call that the worker runs has been started and has not ended. -/
def runsCallable (s : Callers A V) : Bool :=
  s.runsCall && (s.traffic.attempts[s.attempt]?.any fun a => a.stand matches .running)

/-- The worker has answered the caller whose item it was handed. -/
def answer (s : Callers A V) (call : Nat) (accepted : Bool) : Option (Call.Scene A V) :=
  if accepted then s.traffic.move (.accept call)
  else do (← s.traffic.move (.drop (s.itemOf call))).move (.refuse call .closed)

def move (s : Callers A V) : Move A V → Option (Callers A V)
  | .call t args bound =>
    if s.isFree t then do
      let envelope : Call.Envelope A := ⟨s.traffic.parties.length, args⟩
      some {
        office := ← s.office.move (.begin t (.enqueue (.call envelope)))
        traffic := ← s.traffic.move (.launch t args bound) }
    else none
  | .post t number =>
    if s.isFree t then do
      some { s with office := ← s.office.move (.begin t (.enqueue (.posted number))) }
    else none
  | .exit t =>
    if s.isFree t then do some { s with office := ← s.office.move (.begin t .exit) } else none
  | .step t => do
    let office ← s.office.move (.step t)
    match s.handing t, office.threads[t]? with
    | some (call, accepted), some .idle => some ⟨office, ← s.answer call accepted⟩
    | _, _ => some { s with office }
  | .postInside number => do
    if s.runsCall && !s.runsCallable then none
    else some { s with office := ← s.office.move (.beginInside (.enqueue (.posted number))) }
  | .exitInside => do
    if s.runsCall && !s.runsCallable then none
    else some { s with office := ← s.office.move (.beginInside .exit) }
  | .stepInside => do some { s with office := ← s.office.move .stepInside }
  | .finish unwound => do
    if s.runsCall then none else some { s with office := ← s.office.move (.finish unwound) }
  | .drain => do
    let office ← s.office.move .drain
    match office.drain with
    | .running (.call envelope) _ =>
      some ⟨office, ← s.traffic.move (.take office.worker.thread (s.itemOf envelope.call) false)⟩
    | _ => some { s with office }
  | .stepCaller call stray => do
    some { s with traffic := ← s.traffic.move (.stepCaller call stray) }
  | .stepAttempt pick => do
    if !s.runsCall then none
    let traffic ← s.traffic.move (.stepAttempt s.attempt pick)
    -- The item of a call ends with the attempt, and never unwinds.
    if traffic.attempts[s.attempt]?.any (·.stand.isOver) then
      some ⟨← s.office.move (.finish false), traffic⟩
    else some { s with traffic }
  | .finishCallable result => do
    match s.office.drain with
    | .running (.call _) .idle =>
      some { s with traffic := ← s.traffic.move (.finish s.attempt result) }
    | _ => none
  | .tick later => do some { s with traffic := ← s.traffic.move (.tick later) }

/-- A new worker, and nobody has made a call. -/
def isStart (s : Callers A V) : Prop :=
  s.office.isStart ∧ s.traffic.isStart ∧ s.traffic.strict

/-- However the threads have taken turns. -/
def Reachable : Callers A V → Prop := CrossCall.Reachable move isStart

end Callers
end CrossCall.Worker
