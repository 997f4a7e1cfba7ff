import CrossCall.Script.Dispatch

/-!
Steps that set several threads to work at once, and wait for them: threads that wait on one signal,
and callers that use one delegate or one queue together.
-/

namespace CrossCall.Script

open CrossCall.Script.Action

def millis (n : Nat) : Nat := n * 1_000_000

def repeatTimes (body : Action Unit) : Nat → Action Unit
  | 0 => pure ()
  | n + 1 => do
    body
    repeatTimes body n

def raiseTimes (signal times : Nat) : Action Unit :=
  repeatTimes (onSignal signal Signal.raise) times

def count (f : Tally → Tally) : Action Unit := .modify fun w => { w with tally := f w.tally }

def resetTally : Action Unit := count fun _ => {}

/-- Waits until so many threads are done. -/
def awaitDone (n : Nat) : Action Unit := .awaitThat fun w => n ≤ w.tally.done

/-! ### Signals -/

/-- A wait while another thread raises permits after two milliseconds; both are done at the end. -/
def waitRaised (signal : Nat) (bound : WaitBound) (times : Nat) : Action Value := do
  resetTally
  discard (.spawn do
    .sleep (millis 2)
    raiseTimes signal times
    count fun t => { t with done := t.done + 1 })
  let woke ← onSignal signal (Signal.wait bound)
  awaitDone 1
  let pending ← onSignal signal Signal.pending
  return .ofFields [("woke", .bool woke), ("pending", .int pending)]

/-- A thread of a crowd: waits once and counts whether it woke. -/
def crowdWaiter (signal : Nat) (bound : WaitBound) : Action Unit := do
  let woke ← onSignal signal (Signal.wait bound)
  count fun t => { t with done := t.done + 1, good := t.good + if woke then 1 else 0 }

/-- A crowd without limit: permits for some, and once those have woken, permits for the rest. -/
def wakeCrowd (signal waiters before times : Nat) : Action Nat := do
  .sleep (millis 1)
  raiseTimes signal times
  .awaitThat fun w => min (before + times) waiters ≤ w.tally.good
  .sleep (millis 2)
  let early ← .query fun w => w.tally.good
  raiseTimes signal (waiters - early)
  return early

def signalCrowd (signal waiters before times : Nat) (bound : WaitBound) : Action Value := do
  resetTally
  raiseTimes signal before
  repeatTimes (discard (.spawn (crowdWaiter signal bound))) waiters
  let early ← if bound.isInfinite then some <$> wakeCrowd signal waiters before times
    else pure none
  awaitDone waiters
  let t ← .query World.tally
  let pending ← onSignal signal Signal.pending
  return .ofFields [("woke_early", early.elim .null fun n => .int n), ("woke", .int t.good),
    ("timed_out", .int (t.done - t.good)), ("pending", .int pending)]

/-! ### Many callers of one delegate -/

def addError (message : String) : List (String × Nat) → List (String × Nat)
  | [] => [(message, 1)]
  | (m, n) :: rest => if m = message then (m, n + 1) :: rest else (m, n) :: addError message rest

/-- Counts the answer of a call. -/
def Tally.note (t : Tally) : Except Payload (Except InvokeError Value) → Tally
  | .ok (.ok v) => { t with good := t.good + 1, sum := t.sum + Int64.ofInt (v.int64?.getD 0) }
  | .ok (.error e) => { t with errors := addError e.message t.errors }
  | .error p => { t with errors := addError p.message t.errors }

/-- The calls `i`, `i + 1`, … of one caller. -/
def stormCalls (d : Delegate) (caller i : Nat) : Nat → Action Unit
  | 0 => pure ()
  | n + 1 => do
    let result ← (tryInvoke d [.int caller, .int i]).attempt
    count (·.note result)
    stormCalls d caller (i + 1) n

def storm (d : Delegate) (callers calls : Nat) : Action Value := do
  resetTally
  (List.range callers).forM fun c => discard (.spawn do
    stormCalls d c 0 calls
    count fun t => { t with done := t.done + 1 })
  awaitDone callers
  let t ← .query World.tally
  .modify World.clearLog
  return .ofFields [("ok", .int t.good), ("sum", .int t.sum.toInt),
    ("errors", .ofFields (t.errors.map fun e => (e.1, .int e.2)))]

/-! ### Many callers of one queue -/

/-- The next of a sequence of numbers without any plain order. -/
def scramble (n : Nat) : Nat := (n * 1_103_515_245 + 12_345) % 2_147_483_648

/-- Bounds of up to two milliseconds. -/
def shortBound (n : Nat) : WaitBound :=
  .within ⟨n / 65_536 % 2_001 * 1_000, by omega⟩

/-- The calls of one caller: each has a number of its own, which is also its right answer, takes up
to 0.4 milliseconds and may time out. -/
def raceCalls (q : Queue) (first seed : Nat) : Nat → Action Unit
  | 0 => pure ()
  | n + 1 => do
    let nap := scramble seed / 65_536 % 401 * 1_000
    let callable : Callable ← update fun w =>
      let (c, next) := Callable.closure (.sleeper first nap) 0 w.nextClosure
      (c, { w with nextClosure := next })
    let result ← invokeWith (some q) (shortBound seed) callable []
      (callable.target.run [])
    let right : Bool := match result with
      | .ok v => v.int64? = some first
      | .error e => e = .timedOut
    count fun t => { t with good := t.good + if right then 1 else 0 }
    raceCalls q (first + 1) (scramble (scramble seed)) n

/-- How many numbers stand in a list more than once. -/
def repeated (runs : List Nat) : Nat := (runs.eraseDups.filter fun r => 1 < runs.count r).length

/-- Callers of one queue, which is exited at the end if it is a worker. -/
def race (q : Queue) (callers calls seed : Nat) : Action Value := do
  resetTally
  (List.range callers).forM fun c => discard (.spawn do
    raceCalls q (c * calls) (scramble (seed + c)) calls
    count fun t => { t with done := t.done + 1 })
  awaitDone callers
  if let .worker w := q.kind then exitWorker w
  let t ← .query World.tally
  return .ofFields [("calls", .int (callers * calls)),
    ("bad_results", .int (callers * calls - t.good)),
    ("run_more_than_once", .int (repeated t.runs))]

end CrossCall.Script
