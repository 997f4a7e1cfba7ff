import CrossCall.Delegate
import CrossCall.Script.Function

/-!
What the callables, posted tasks and queued items of a script are, as data; `Script.Dispatch` says
what running them does. A relay and a task hold clones of delegates, so such data nests, and with a
delegate they hold handles of queues.
-/

namespace CrossCall.Script

/-- The types of functions and methods, as far as equality of callables can tell them apart. -/
inductive CodeType where
  | function (name : FunctionName)
  /-- The two closures that capture nothing. -/
  | doubler (second : Bool)
  | method (name : MethodName)
  /-- Pointers to methods of one signature share a type. -/
  | methodPointer (arity : Nat)
  | scaled
  deriving DecidableEq, Inhabited

/-- The state behind callables: the balances of objects, and counters. -/
structure Store where
  balances : List Int64 := []
  counters : List Int64 := []
  deriving Inhabited

/-- Objects, counters and signals are known by their numbers. -/
inductive Target where
  | named (function : FunctionName)
  /-- Twice the argument. -/
  | double
  | adder (n : Int)
  | scaler (n : Int)
  | counter (number : Nat)
  /-- Passes a gate and answers a fixed value. -/
  | gated (gate : String) (value : Value)
  /-- Answers the outcome of a call through a delegate. -/
  | relay (delegate : Delegate CodeType Target)
  | method (object : Nat) (name : MethodName)
  /-- Adds a multiple of the argument to the object's balance. -/
  | scaled (object : Nat) (factor : Int)
  /-- Notes that the run has begun, takes a nap and answers the number of the run. -/
  | sleeper (run nap : Nat)
  /-- Any other. It notes its arguments; what it comes to, and what it leaves in the store, is an
  arbitrary function of the arguments and the store. -/
  | custom (name : String) (act : List Value → Store → Except Payload Value × Store)

abbrev Callable := CrossCall.Callable CodeType Target

abbrev Delegate := CrossCall.Delegate CodeType Target

/-- What a script posts to a queue. -/
inductive Task where
  | log (value : Value)
  | threadName
  | panic (payload : Payload)
  | gate (gate : String)
  | invoke (delegate : Delegate) (args : List Value)
  | post (queue : Queue) (next : Task)
  | exit (worker : Nat)
  | probe (queue : Queue)
  | stats (worker : Nat)
  | raise (signal : Nat)
  | wait (signal : Nat) (bound : WaitBound)

/-- What a thread runs for somebody else. -/
inductive Work where
  /-- A call in flight, with the arguments as they were when it was made. -/
  | envelope (call : Nat) (callable : Callable) (args : List Value)
  | task (task : Task)

/-- Work that waits to be run. -/
structure Item where
  /-- Under which number its handles are kept. -/
  number : Nat
  work : Work

/-! ### Handles, in the order in which they are let go of -/

def Target.handles : Target → List Handle
  | .relay ⟨⟨target, _, _⟩, queue, _, _⟩ => target.handles ++ queue.elim [] Queue.handles
  | _ => []

def handlesOfDelegate (d : Delegate) : List Handle :=
  d.callable.target.handles ++ d.queue.elim [] Queue.handles

def Task.handles : Task → List Handle
  | .invoke d _ => handlesOfDelegate d
  | .post q next => q.handles ++ next.handles
  | .probe q => q.handles
  | .exit w | .stats w => [.worker w]
  | _ => []

def Work.handles : Work → List Handle
  | .envelope _ callable _ => callable.target.handles
  | .task t => t.handles

end CrossCall.Script
