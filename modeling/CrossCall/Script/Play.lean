import CrossCall.Concurrent.Machine
import CrossCall.Script.Build
import CrossCall.Script.Crowd

/-!
Playing a script: its steps run one after another on the first thread, each with its answer. At the
end all gates are opened, the threads of handing-off queues come to their ends, what lies on shelves
is dropped, and the workers that are still held are exited in the order in which they were made.
-/

namespace CrossCall.Script

open CrossCall.Script.Action CrossCall.Script.Build

def ok : Value := .text "ok"

/-! ### Measured waits -/

/-- A program with the time it took. -/
def timed {α : Type} (body : Action α) : Action (α × Nat) := do
  let before ← .now
  let result ← body
  return (result, (← .now) - before)

/-- Whether a wait that timed out after so long was no shorter than its bound. -/
def isFullWait (bound : WaitBound) (elapsed : Nat) : Bool :=
  match bound with
  | .infinite => false
  | .within span => span.nanos ≤ elapsed

/-! ### Single steps -/

def callValue : Except Payload Value → Value
  | .ok v => .ofFields [("ok", v)]
  | .error p => panicValue p

def tryValue : Except Payload (Except InvokeError Value) → Value
  | .ok result => outcomeValue result
  | .error p => panicValue p

def asyncValue : Except Payload (Option Value) → Value
  | .ok v => optionValue v
  | .error p => panicValue p

def tryCall (d : Delegate) (args : List Value) : Action Value :=
  tryValue <$> (tryInvoke d args).attempt

def asyncCall (d : Delegate) (args : List Value) : Action Value :=
  asyncValue <$> (asyncInvoke d args).attempt

def recordedCall (slot : String) (d : Delegate) (args : List Value) : Action Value := do
  let (d, returned) ← invoke d args
  putDelegate slot d
  return .ofFields [("returned", asyncValue returned), ("state", stateValue d)]

def timedCall (d : Delegate) (args : List Value) : Action Value := do
  let (result, elapsed) ← timed (tryInvoke d args).attempt
  let timedOut := match result with
    | .ok (.error .timedOut) => true
    | _ => false
  return .ofFields [("result", tryValue result),
    ("full_wait", .bool (timedOut && isFullWait d.bound elapsed)),
    ("under_two_seconds", .bool (elapsed < 2_000_000_000))]

/-- A call on a thread of its own, which keeps the delegate alive from now on. The answer can be seen
once the thread has let go of it. -/
def startCall (call : String) (d : Delegate) (args : List Value) (mode : CallMode) :
    Action Unit := do
  let (k, n) ← update fun w =>
    let (n, w) := w.keep (handlesOfDelegate d)
    ((w.started.length, n),
      { w with
        started := w.started ++ [none]
        slots := { w.slots with calls := assign call w.started.length w.slots.calls } })
  discard (.spawn do
    let answer ← consume n <| match mode with
      | .tryInvoke => tryCall d args
      | .asyncInvoke => asyncCall d args
    .modify fun w => { w with started := w.started.set k answer.toOption })

def pendingValue (signal : Nat) : Action Value := do
  return .ofFields [("pending", .int (← onSignal signal Signal.pending))]

def timedSignalWait (signal : Nat) (bound : WaitBound) : Action Value := do
  let (woke, elapsed) ← timed (onSignal signal (Signal.wait bound))
  let pending ← onSignal signal Signal.pending
  return .ofFields [("woke", .bool woke), ("pending", .int pending),
    ("full_wait", .bool (!woke && isFullWait bound elapsed))]

/-- Takes an item off a shelf, to be run. -/
def takeItem (shelf index : Nat) : Action (Option Item) := update fun w =>
  let items := w.shelves[shelf]?.getD []
  (items[index]?, { w with shelves := w.shelves.set shelf (items.eraseIdx index) })

/-- Takes all items off a shelf. -/
def takeItems (shelf : Nat) : Action (List Item) := update fun w =>
  (w.shelves[shelf]?.getD [], { w with shelves := w.shelves.set shelf [] })

/-- Drops all items of a shelf one after another, and counts them. -/
def dropItems (shelf : Nat) : Action Nat := do
  let items ← takeItems shelf
  items.forM fun item => letGo item.number
  return items.length

def workerStats (w : Nat) : Action WorkerStats := onWorker w Worker.stats

/-- Waits until as many items of the worker are pending. -/
def awaitPending (w n : Nat) : Action Unit :=
  .awaitThat fun s => s.workers[w]?.any (·.pending.toNat = n)

/-- Waits for the threads of a handing-off queue, and answers which of them ended without a panic. -/
def joinLine (line : Nat) : Action (List Bool) :=
  .run (.guarded fun _ w => do
    let ended ← (w.lines[line]?.getD []).mapM (·.2)
    some (ended, { w with lines := w.lines.set line [] }))

def newObject (slot : String) (balance : Int64) : Action Unit :=
  .modify fun w => { w with
    balances := w.balances ++ [balance]
    slots := { w.slots with objects := assign slot w.balances.length w.slots.objects } }

def balanceOf (object : Nat) : Action Int := .query fun w => (w.balances[object]?.getD 0).toInt

def newSignal (slot : String) : Action Unit :=
  .modify fun w => { w with
    signals := w.signals ++ [{}]
    slots := { w.slots with signals := assign slot w.signals.length w.slots.signals } }

def openGate (name : String) : Action Unit :=
  .modify fun w => w.setGate name { w.gate name with isOpen := true }

/-- Waits until so many passes of a gate were begun, and answers how many were. -/
def awaitEntered (name : String) (n : Nat) : Action Nat :=
  .await fun w => if n ≤ (w.gate name).entered then some (w.gate name).entered else none

def takeLog : Action Value := update fun w => (w.logs, w.clearLog)

def awaitLog (length : Nat) : Action Unit := .awaitThat fun w => length ≤ w.log.size

def shelfLength (shelf : Nat) : Action Nat := .query fun w => (w.shelves[shelf]?.getD []).length

def awaitShelf (shelf length : Nat) : Action Unit :=
  .awaitThat fun w => length ≤ (w.shelves[shelf]?.getD []).length

def runItem (item : Item) : Action Value := do
  match ← item.run with
  | .ok () => return .text "ran"
  | .error p => return panicValue p

/-- Runs items one after another; each is kept until its own run has ended. -/
def runItems (items : List Item) : Action Unit := items.forM fun item => discard (runItem item)

def postValue (q : Queue) (t : Task) : Action Value := do
  match ← (post q t).attempt with
  | .ok result => return refusalOrOk result
  | .error p => return panicValue p

def pendingItems (w : Nat) : Action Nat := .query fun s => (s.workers[w]?.elim 0 (·.pending.toNat))

def isOpenWorker (w : Nat) : Action Bool := onWorker w Worker.lookOpen

def debugWorker (w : Nat) : Action Value := do
  let name ← workerName w
  let isOpen ← isOpenWorker w
  return .text (workerText name isOpen (← workerStats w))

def exitValue (w : Nat) : Action Value := do
  exitWorker w
  let isOpen ← isOpenWorker w
  return .ofFields [("is_open", .bool isOpen), ("stats", statsValue (← workerStats w))]

def awaitStarted (k : Nat) : Action Value := .await fun w => w.started[k]?.join

def startWorkerValue (slot : String) (source : SpecSource) : Action Value := do
  match spec source with
  | .error e => return e
  | .ok s =>
    match ← startWorker slot s with
    | .ok () => return .ofFields [("name", .text s.name)]
    | .error _ => return .ofFields [("error", .text "Spawn"), ("name", .text s.name)]

/-- The answer of a step, or nothing if the step is a bad one. -/
def playStep : Step → Build Value
  | .object slot balance => do
    newObject slot balance
    return ok
  | .objectGet slot => do
    return .int (← balanceOf (← objectAt slot))
  | .objectForget slot => do
    let _ ← objectAt slot
    setSlots fun s => { s with objects := s.objects.filter (·.1 ≠ slot) }
    return ok
  | .callable slot source => do
    putCallable slot (← Build.callable source)
    return ok
  | .callableClone slot other => do
    putCallable other (← callableAt slot)
    return ok
  | .call slot args => do
    let c ← callableAt slot
    check (args.length = c.arity)
    return callValue (← (c.target.run args).attempt)
  | .callableEq slot other => do
    let a ← callableAt slot
    let b ← callableAt other
    return if a.arity = b.arity then .bool (a.same b) else .null
  | .callableGroups slots => do
    let callables ← slots.mapM callableAt
    return .list ((CrossCall.Callable.groups callables).map fun n : Nat => .int n)
  | .callableDebug slot => return .text (← callableAt slot).text
  | .gateOpen gate => do
    openGate gate
    return .text "open"
  | .gateEntered gate n => do
    return .ofFields [("entered", .int (← awaitEntered gate n))]
  | .log => takeLog
  | .logAwait length => do
    awaitLog length
    return .bool true
  | .pause => do
    (Program.sleep (millis 20) : Action Unit)
    return ok
  | .signalNew slot => do
    newSignal slot
    pendingValue (← signalAt slot)
  | .signalRaise slot times => do
    let s ← signalAt slot
    raiseTimes s times
    pendingValue s
  | .signalReset slot => do
    let s ← signalAt slot
    (discard (onSignal s Signal.reset) : Action Unit)
    pendingValue s
  | .signalPending slot => do pendingValue (← signalAt slot)
  | .signalWait slot bound => do timedSignalWait (← signalAt slot) bound
  | .signalWaitRaised slot bound times => do waitRaised (← signalAt slot) bound times
  | .signalCrowd slot waiters before times bound => do
    signalCrowd (← signalAt slot) waiters before times bound
  | .queue slot name source => do
    Build.queue slot name source
    return .ofFields [("name", .text name)]
  | .queueInfo slot => do
    let q ← queueAt slot
    return .ofFields [("name", .text q.name), ("is_current", .bool (← isCurrent q))]
  | .parkedLen slot => do
    return .int (← shelfLength (← shelfAt slot))
  | .parkedAwait slot length => do
    awaitShelf (← shelfAt slot) length
    return .bool true
  | .parkedRun slot index => do
    let item ← OptionT.mk (takeItem (← shelfAt slot) index)
    runItem item
  | .parkedRunAll slot => do
    let items ← takeItems (← shelfAt slot)
    runItems items
    return .ofFields [("ran", .int items.length)]
  | .parkedDropAll slot => do
    return .ofFields [("dropped", .int (← dropItems (← shelfAt slot)))]
  | .handoffJoin slot => do
    match (← queueAt slot).kind with
    | .handoff line _ =>
      let joined ← joinLine line
      return .ofFields [("joined", .list (joined.map .bool))]
    | _ => failure
  | .worker slot source => startWorkerValue slot source
  | .post slot source => do
    postValue (← queueAt slot) (← task source)
  | .stats slot => do return statsValue (← workerStats (← workerAt slot))
  | .pending slot => do
    return .int (← pendingItems (← workerAt slot))
  | .isOpen slot => do return .bool (← isOpenWorker (← workerAt slot))
  | .sync slot => do
    let w ← workerAt slot
    awaitPending w 0
    return statsValue (← workerStats w)
  | .pendingAwait slot n => do
    awaitPending (← workerAt slot) n
    return .bool true
  | .workerDebug slot => do debugWorker (← workerAt slot)
  | .exit slot => do exitValue (← workerAt slot)
  | .drop slot => do
    let _ ← queueAt slot
    setSlots fun s => { s with queues := s.queues.filter (·.1 ≠ slot) }
    return .text "dropped"
  | .race slot callers calls seed => do
    race (← queueAt slot) callers calls seed
  | .delegate slot source => do
    putDelegate slot (← Build.delegate source)
    return ok
  | .invoke slot args => do
    let d ← delegateAt slot
    check (args.length = d.callable.arity)
    recordedCall slot d args
  | .tryInvoke slot args => do
    let d ← delegateAt slot
    check (args.length = d.callable.arity)
    tryCall d args
  | .asyncInvoke slot args => do
    let d ← delegateAt slot
    check (args.length = d.callable.arity)
    asyncCall d args
  | .timedInvoke slot args => do
    let d ← delegateAt slot
    check (args.length = d.callable.arity)
    timedCall d args
  | .start call slot args mode => do
    let d ← delegateAt slot
    check (args.length = d.callable.arity)
    startCall call d args mode
    return .text "started"
  | .join call => do awaitStarted (← find Slots.calls call)
  | .delegateState slot => return stateValue (← delegateAt slot)
  | .delegateConfig slot => do
    let d ← delegateAt slot
    return .ofFields [("timeout", boundValue d.bound),
      ("queue", d.queue.elim .null fun q => .text q.name)]
  | .delegateClone slot other => do
    putDelegate other (← delegateAt slot).clone
    return ok
  | .delegateCallable slot other => do
    putCallable other (← delegateAt slot).callable
    return ok
  | .delegateEq slot other => do
    let a ← delegateAt slot
    let b ← delegateAt other
    return if a.callable.arity = b.callable.arity then .bool (a.same b) else .null
  | .delegateDebug slot => return .text (← delegateAt slot).text
  | .delegateDrop slot => do
    let _ ← delegateAt slot
    setSlots fun s => { s with delegates := s.delegates.filter (·.1 ≠ slot) }
    return .text "dropped"
  | .storm slot callers calls => do
    let d ← delegateAt slot
    check (d.callable.arity = 2)
    storm d callers calls

/-! ### Whole scripts -/

def badStep : Value := .ofFields [("bad", .text "step")]

/-- Plays the steps in order and keeps each answer. What could not be read as a step is a bad
one. -/
def playAll : List (Option Step) → Action Unit
  | [] => pure ()
  | step :: rest => do
    let answer ← (OptionT.mk (pure step) >>= playStep).run
    .modify fun w => { w with answers := w.answers.push (answer.getD badStep) }
    playAll rest

/-- Whether all threads that handing-off queues have started are at their ends. -/
def linesEnded (w : World) : Bool := w.lines.all (·.all (·.2.isSome))

/-- The workers that anything still has a handle of, in the order in which they were made. They are
kept from now on. -/
def heldWorkers : Action (List Nat) := update fun w =>
  let held := (List.range w.workers.length).filter fun i => w.holds (.worker i)
  (held, (w.keep (held.map .worker)).2)

def cleanUp : Action Unit := do
  .modify fun w => { w with gatesOpen := true }
  .awaitThat linesEnded
  let shelves ← .query fun w => w.shelves.length
  (List.range shelves).forM fun shelf => discard (dropItems shelf)
  (← heldWorkers).forM exitWorker

/-- What a script leaves behind. -/
structure Transcript where
  answers : List Value
  log : Value
  events : List Value

/-- More steps of threads than any script takes that comes to an end. -/
def stepLimit : Nat := 1_000_000_000_000

def play (steps : List (Option Step)) : Transcript :=
  let main : Action Bool := do
    playAll steps
    cleanUp
    return false
  let world := ((Machine.start {} main).run stepLimit 0).shared
  ⟨world.answers.toList, world.logs, Event.sorted world.events.toList⟩

end CrossCall.Script
