import CrossCall.Script.Dispatch
import CrossCall.Script.Step

/-!
From what a script writes to what runs: slots are looked up, callables get their identities, and
tasks take clones of what they name. A slot that stands for nothing makes the step a bad one.
-/

namespace CrossCall.Script

/-- A program that may find a step to be bad. -/
abbrev Build := OptionT Action

namespace Build

def find {α : Type} (slots : Slots → List (String × α)) (name : String) : Build α :=
  OptionT.mk (.query fun w => (slots w.slots).lookup name)

def check (b : Bool) : Build Unit := if b then pure () else failure

def setSlots (f : Slots → Slots) : Action Unit :=
  Action.rearrange fun w => { w with slots := f w.slots }

def callableAt (slot : String) : Build Callable := find Slots.callables slot

def delegateAt (slot : String) : Build Delegate := find Slots.delegates slot

def queueAt (slot : String) : Build Queue := find Slots.queues slot

def objectAt (slot : String) : Build Nat := find Slots.objects slot

def signalAt (slot : String) : Build Nat := find Slots.signals slot

def workerAt (slot : String) : Build Nat := do
  match (← queueAt slot).kind with
  | .worker w => return w
  | _ => failure

def shelfAt (slot : String) : Build Nat := do
  match (← queueAt slot).kind with
  | .parked shelf => return shelf
  | _ => failure

def putCallable (slot : String) (c : Callable) : Action Unit :=
  setSlots fun s => { s with callables := assign slot c s.callables }

def putDelegate (slot : String) (d : Delegate) : Action Unit :=
  setSlots fun s => { s with delegates := assign slot d s.delegates }

/-! ### Callables -/

/-- What a function does, how many arguments it takes, and what can be told of it. -/
def function : FunctionSource → Build (Target × Nat × Linkage CodeType)
  | .item f => return (.named f, f.arity, .stateless (.function f))
  | .pointer f => return (.named f, f.arity, .pointer f.address)
  | .lambda second => return (.double, 1, .stateless (.doubler second))
  | .adder n => return (.adder n, 1, .stateful)
  | .scaler n => return (.scaler n, 2, .stateful)
  | .counter n => do
    let number ← (Action.update fun w =>
      (w.counters.length, { w with counters := w.counters ++ [Int64.ofInt n] }) : Action Nat)
    return (.counter number, 0, .stateful)
  | .gated gate value => return (.gated gate value, 0, .stateful)
  | .relay slot => do
    let d ← delegateAt slot
    return (.relay d.clone, d.callable.arity, .stateful)

/-- What a method bound to an object does, how many arguments it takes, and its type. -/
def method (object : Nat) : MethodSource → Target × Nat × CodeType
  | .item m => (.method object m, m.arity, .method m)
  | .pointer m => (.method object m, m.arity, .methodPointer m.arity)
  | .scaled factor => (.scaled object factor, 1, .scaled)

/-- Makes a callable with the next number for closures at hand. -/
def numbered (make : UInt64 → Callable × UInt64) : Action Callable :=
  Action.update fun w =>
    let (c, next) := make w.nextClosure
    (c, { w with nextClosure := next })

def callable : CallableSource → Build Callable
  | .free fn => do
    let (target, arity, linkage) ← function fn
    numbered (CrossCall.Callable.free target arity linkage)
  | .closure fn => do
    let (target, arity, _) ← function fn
    numbered (CrossCall.Callable.closure target arity)
  | .bound object m => do
    let o ← objectAt object
    let (target, arity, type) := method o m
    return .bound target arity type o

/-! ### Delegates, queues, specifications and tasks -/

def delegate : DelegateSource → Build Delegate
  | .new slot queue bound => do
    let queue ← match queue with
      | none => pure none
      | some q => some <$> queueAt q
    return { callable := ← callableAt slot, queue, bound }
  | .direct slot => return .direct (← callableAt slot)
  | .make source queue bound => do
    return { callable := ← callable source, queue := some (← queueAt queue), bound }
  | .makeDirect fn => return .direct (← callable (.free fn))

/-- Makes the queue, with whatever it keeps its items in. -/
def queue (slot name : String) (source : QueueSource) : Action Unit :=
  Action.rearrange fun w =>
    let kind : QueueKind := match source with
      | .inline => .inline
      | .current => .current
      | .closed => .closed
      | .runThenRefuse => .runThenRefuse
      | .discard => .discard
      | .parked => .parked w.shelves.length
      | .spawnFail text => .spawnFail text
      | .handoff gate => .handoff w.lines.length gate
    { w with
      shelves := match source with
        | .parked => w.shelves ++ [[]]
        | _ => w.shelves
      lines := match source with
        | .handoff _ => w.lines ++ [[]]
        | _ => w.lines
      nextQueue := w.nextQueue + 1
      slots := { w.slots with queues := assign slot ⟨w.nextQueue, name, kind⟩ w.slots.queues } }

def withStacks (spec : WorkerSpec) : List UInt64 → Except Payload WorkerSpec
  | [] => .ok spec
  | n :: rest => do withStacks (← spec.withStack n) rest

/-- The specification, or how its failure is written. -/
def spec : SpecSource → Except Value WorkerSpec
  | .named name sizes => (withStacks (.named name) sizes).mapError misuse
  | .default sizes => (withStacks .default sizes).mapError misuse
  | .load v => (WorkerSpec.load v).mapError loadFailureValue
  | .entries fields => (WorkerSpec.loadFields fields).mapError loadFailureValue
where
  misuse (p : Payload) : Value :=
    .ofFields [("error", .text "panic"), ("message", .text p.message)]

def task : TaskSource → Build Task
  | .log v => return .log v
  | .threadName => return .threadName
  | .panic p => return .panic p
  | .gate g => return .gate g
  | .invoke d args => do
    let d ← delegateAt d
    check (args.length = d.callable.arity)
    return .invoke d.clone args
  | .post q next => return .post (← queueAt q) (← task next)
  | .exit q => return .exit (← workerAt q)
  | .probe q => return .probe (← queueAt q)
  | .stats q => return .stats (← workerAt q)
  | .raise s => return .raise (← signalAt s)
  | .wait s bound => return .wait (← signalAt s) bound

end Build
end CrossCall.Script
