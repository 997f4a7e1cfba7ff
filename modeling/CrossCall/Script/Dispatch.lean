import CrossCall.Script.Handle
import CrossCall.Script.Report

/-!
Calls: how a delegate makes them, how queues take them, how they are run, and what running a target
or a task does. A call that goes to a queue gets a state of its own, shared by the caller and the
item; a panic of the callable ends at the thread that runs the item, and one of a call made on the
spot unwinds into the caller.
-/

namespace CrossCall.Script

open CrossCall.Script.Action

/-! ### Queues -/

/-- Whether the thread that runs is the one of worker `w`. -/
def isThreadOf (w : Nat) : Action Bool :=
  .run (.atomic fun m s => (s.workers[w]?.any (·.thread = m.self), s))

def workerName (w : Nat) : Action String := .query fun s => s.workers[w]?.elim "" Worker.name

/-- Whether the thread that runs drains the queue. -/
def isCurrent (q : Queue) : Action Bool :=
  match q.kind with
  | .current => pure true
  | .worker w => isThreadOf w
  | _ => pure false

/-- Begins a pass of a gate, and waits until the gate is open. -/
def passGate (name : String) : Action Unit := do
  .run (.atomic fun m w =>
    let g := w.gate name
    ((), w.setGate name { g with entered := g.entered + 1, waiting := m.self :: g.waiting }))
  .run (.guarded fun m w =>
    let g := w.gate name
    if g.isOpen then
      some ((), w.setGate name { g with waiting := g.waiting.erase m.self })
    else none)

/-- Work is dropped without having run. -/
def dropUnrun (kept : Option Nat) : Action Unit := kept.forM letGo

/-- Runs work here, with what it holds. -/
def runHere (kept : Option Nat) (body : Action Unit) : Action Unit :=
  match kept with
  | none => body
  | some n => do .ofExcept (← consume n body)

/-- Makes an item of work, which from now on holds by itself what it needs. -/
def pack (work : Work) : Option Nat → Action Item
  | some n => pure ⟨n, work⟩
  | none => do return ⟨← keep work.handles, work⟩

def enqueueOnWorker (w : Nat) (item : Item) : Action (Except DispatchError Unit) := do
  let result ← onWorker w (Worker.enqueue item)
  if result.isOk then report (.enqueued (← workerName w)) else letGo item.number
  return result

/-- Starts a thread for what holds the handles under `n`, and waits until it has ended or stands
before the closed gate. -/
def handOff (line : Nat) (gate : String) (n : Nat) (body : Action Unit) : Action Unit := do
  let t ← .spawn do
    .run (.atomic fun m w => ((), w.addToLine line m.self))
    let result ← consume n body
    .run (.atomic fun m w => ((), w.endInLine line m.self result.isOk))
  .awaitThat fun w => (!(w.gate gate).isOpen && (w.gate gate).waiting.contains t) ||
    w.endedInLine line t

/-- Hands work, which runs as `body`, to a queue. Its handles are kept under a number, or the caller
holds them all as long as this takes. -/
def enqueue (q : Queue) (work : Work) (kept : Option Nat) (body : Action Unit) :
    Action (Except DispatchError Unit) :=
  match q.kind with
  | .inline | .current => do
    runHere kept body
    return .ok ()
  | .closed => do
    dropUnrun kept
    return .error .closed
  | .runThenRefuse => do
    runHere kept body
    return .error .closed
  | .discard => do
    dropUnrun kept
    return .ok ()
  | .spawnFail text => do
    dropUnrun kept
    return .error (.spawn q.name text)
  | .parked shelf => do
    let item ← pack work kept
    .modify (World.shelve · shelf item)
    return .ok ()
  | .handoff line gate => do
    let item ← pack work kept
    handOff line gate item.number body
    return .ok ()
  | .worker w => do
    let item ← pack work kept
    enqueueOnWorker w item

/-! ### Calls -/

/-- The target's side of a call: runs the callable, as `body`, unless the caller has given up. -/
def executeCall (call : Nat) (callable : Callable) (body : Action Value) : Action Unit := do
  if ← onCall call Call.enter then
    let result ← body.attempt
    if ← onCall call Call.conclude then
      if let .error p := result then report (.targetPanicked callable.text p.message)
      onCall call (Call.deliver (result.mapError Payload.message))
    else report (.discarded callable.text)
  else report (.skipped callable.text)

def newCall : Action Nat := update fun w => (w.calls.size, { w with calls := w.calls.push {} })

/-- The caller's side of a call that goes to a queue. -/
def callThrough (q : Queue) (bound : WaitBound) (callable : Callable) (args : List Value)
    (body : Action Value) : Action (Except InvokeError Value) := do
  let call ← newCall
  report (.dispatched q.name bound)
  match ← enqueue q (.envelope call callable args) none (executeCall call callable body) with
  | .error e =>
    report (.refused q.name e)
    return .error (.dispatch e)
  | .ok () =>
    let result ← onCall call (Call.collect bound)
    if !result.isOk then report (.failed q.name bound)
    return result

/-- A call of a callable, whose running is `body`: on the spot without a queue or on the queue's own
thread, else through the queue. -/
def invokeWith (queue : Option Queue) (bound : WaitBound) (callable : Callable)
    (args : List Value) (body : Action Value) : Action (Except InvokeError Value) :=
  match queue with
  | none => do return .ok (← body)
  | some q => do
    if ← isCurrent q then
      report (.invokedInline q.name)
      return .ok (← body)
    else callThrough q bound callable args body

/-! ### Targets -/

def logCall (name : String) (args : List Value) : Action Unit :=
  log (.list [.text name, .list args])

def ints : List Value → Except Payload (List Int)
  | [] => .ok []
  | v :: rest => do return (← int v) :: (← ints rest)

/-- One step on the store. -/
def onStore (act : Store → Except Payload Value × Store) : Action Value := do
  .ofExcept (← update fun w => ((act w.toStore).1, { w with toStore := (act w.toStore).2 }))

/-- Replaces an object's balance, and answers the new one. -/
def Store.changeBalance (object : Nat) (f : Int64 → Except Payload Int64) (s : Store) :
    Except Payload Value × Store :=
  match s.balances[object]? with
  | none => (.error (.literal "no such object"), s)
  | some b =>
    match f b with
    | .error p => (.error p, s)
    | .ok b => (.ok (.int b.toInt), { s with balances := s.balances.set object b })

def Store.nextCount (counter : Nat) (s : Store) : Except Payload Value × Store :=
  let n := s.counters[counter]?.getD 0
  (.ok (.int n.toInt), { s with counters := s.counters.set counter (n + 1) })

def Target.run : Target → List Value → Action Value
  | .named f, args => do
    logCall f.name args
    .ofExcept (f.eval args)
  | .double, args => .ofExcept do
    let xs ← ints args
    return .int (← fit "double" (2 * xs.foldl (· + ·) 0))
  | .adder n, args => do
    logCall "adder" args
    .ofExcept do
      let xs ← ints args
      return .int (← fit "adder" (xs.foldl (· + ·) n))
  | .scaler n, args => do
    logCall "scaler" args
    .ofExcept do
      let sum ← fit "scaler" ((← ints args).foldl (· + ·) 0)
      return .int (← fit "scaler" (sum * n))
  | .counter number, args => do
    logCall "counter" args
    onStore (Store.nextCount number)
  | .gated gate value, _ => do
    log (.text "gated enter")
    passGate gate
    log (.text "gated leave")
    match value with
    | .text "panic" => .unwind (.literal "gated panic")
    | _ => return value
  | .relay ⟨⟨target, arity, identity⟩, queue, bound, _⟩, args => do
    return outcomeValue (← invokeWith queue bound ⟨target, arity, identity⟩ args (target.run args))
  | .method object name, args => do
    logCall name.name args
    let xs ← .ofExcept (ints args)
    onStore (Store.changeBalance object fun b => name.apply b xs)
  | .scaled object factor, args => do
    let xs ← .ofExcept (ints args)
    let change := Int64.ofInt (xs.foldl (· + ·) 0 * factor)
    logCall "scaled" [.int change.toInt]
    onStore (Store.changeBalance object fun b => .ok (b + change))
  | .sleeper run nap, _ => do
    .modify fun w => { w with tally := { w.tally with runs := run :: w.tally.runs } }
    .sleep nap
    return .int run
  | .custom name act, args => do
    logCall name args
    onStore (act args)

/-- A call through a delegate. The delegate itself does not change. -/
def tryInvoke (d : Delegate) (args : List Value) : Action (Except InvokeError Value) :=
  invokeWith d.queue d.bound d.callable args (d.callable.target.run args)

/-- The value of a call, or nothing. -/
def asyncInvoke (d : Delegate) (args : List Value) : Action (Option Value) := do
  return (← tryInvoke d args).toOption

/-- A recorded call, and the delegate after it. -/
def invoke (d : Delegate) (args : List Value) :
    Action (Delegate × Except Payload (Option Value)) := do
  return d.afterInvoke (← (tryInvoke d args).attempt)

/-! ### Tasks -/

def refusalOrOk : Except DispatchError Unit → Value
  | .ok () => .text "ok"
  | .error e => refusalValue e

/-- What a task does that holds its handles under `n`. A task that is posted by another one takes its
handles along. -/
def Task.run (n : Nat) : Task → Action Unit
  | .log value => Action.log value
  | .threadName => .run (.atomic fun m w =>
    ((), w.append m.self (.list [.text "thread_name", .text (w.label m.self)])))
  | .panic p => .unwind p
  | .gate name => passGate name
  | .invoke d args => do
    Action.log (.list [.text "invoke", outcomeValue (← tryInvoke d args)])
  | .post q next => do
    let m ← update (·.divide n q.handles next.handles)
    let result ← enqueue q (.task next) (some m) (next.run m)
    Action.log (.list [.text "post", refusalOrOk result])
  | .exit w => do
    exitWorker w
    let isOpen ← onWorker w Worker.lookOpen
    Action.log (.list [.text "exit", .ofFields [("is_open", .bool isOpen)]])
  | .probe q => do
    Action.log (.list [.text "probe", .bool (← isCurrent q)])
  | .stats w => do
    Action.log (.list [.text "stats", statsValue (← onWorker w Worker.stats)])
  | .raise i => onSignal i Signal.raise
  | .wait i bound => do
    Action.log (.list [.text "wait", .bool (← onSignal i (Signal.wait bound))])

def Work.run (n : Nat) : Work → Action Unit
  | .envelope call callable args => executeCall call callable (callable.target.run args)
  | .task t => t.run n

/-- Runs an item, which is gone then. -/
def Item.run (item : Item) : Action (Except Payload Unit) :=
  consume item.number (item.work.run item.number)

/-- Hands a task to a queue. -/
def post (q : Queue) (t : Task) : Action (Except DispatchError Unit) := do
  let n ← keep t.handles
  enqueue q (.task t) (some n) (t.run n)

/-! ### Workers -/

/-- A turn of a worker's thread: runs the next item and counts its outcome. -/
def drainTurn (w : Nat) : Action Bool := do
  let name ← workerName w
  match ← onWorker w (.guarded fun _ x => x.receive) with
  | none =>
    report (.ended name)
    modifyWorker w Worker.finish
    return false
  | some item =>
    match ← item.run with
    | .ok () => modifyWorker w (Worker.charge false)
    | .error p =>
      modifyWorker w (Worker.charge true)
      report (.itemPanicked name p.message)
    modifyWorker w Worker.settle
    return true

/-- What a worker's thread does first. -/
def firstTurn (w : Nat) : Action Bool := do
  -- The name is known once the worker is in the table.
  let name ← .await fun s => s.workers[w]?.map Worker.name
  report (.started name)
  return true

/-- A stack of this size is more than an address can point into. -/
def addressSpace : Nat := 140_737_488_355_328

/-- Starts a worker under a handle in the slot. -/
def startWorker (slot : String) (spec : WorkerSpec) : Action (Except DispatchError Unit) := do
  report (.spawning spec.name spec.stackSize)
  if spec.stackSize.any fun bytes => addressSpace ≤ bytes.toNat then
    return .error (.spawn spec.name "")
  else
    let w ← .query fun s => s.workers.length
    let t ← .fork (firstTurn w) (drainTurn w) pure
    rearrange fun s =>
      { s with
        workers := s.workers ++ [{ name := spec.name, thread := t }]
        nextQueue := s.nextQueue + 1
        slots := { s.slots with
          queues := assign slot ⟨s.nextQueue, spec.name, .worker w⟩ s.slots.queues } }
    report (.spawned spec.name)
    return .ok ()

end CrossCall.Script
