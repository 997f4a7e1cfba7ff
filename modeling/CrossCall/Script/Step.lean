import CrossCall.Script.World

/-!
The steps of a script, as they are written: everything is named by slots.
-/

namespace CrossCall.Script

/-- A function as a script writes it. -/
inductive FunctionSource where
  | item (name : FunctionName)
  | pointer (name : FunctionName)
  | lambda (second : Bool)
  | adder (n : Int)
  | scaler (n : Int)
  | counter (n : Int)
  | gated (gate : String) (value : Value)
  | relay (delegate : String)

inductive MethodSource where
  | item (name : MethodName)
  | pointer (name : MethodName)
  | scaled (factor : Int)

inductive SpecSource where
  | named (name : String) (sizes : List UInt64)
  | default (sizes : List UInt64)
  | load (value : Value)
  | entries (fields : List (String × Value))

inductive QueueSource where
  | inline | current | closed | runThenRefuse | discard | parked
  | spawnFail (text : String)
  | handoff (gate : String)

inductive CallableSource where
  | free (fn : FunctionSource)
  | closure (fn : FunctionSource)
  | bound (object : String) (method : MethodSource)

inductive DelegateSource where
  | new (callable : String) (queue : Option String) (bound : WaitBound)
  | direct (callable : String)
  | make (callable : CallableSource) (queue : String) (bound : WaitBound)
  | makeDirect (fn : FunctionSource)

inductive TaskSource where
  | log (value : Value)
  | threadName
  | panic (payload : Payload)
  | gate (gate : String)
  | invoke (delegate : String) (args : List Value)
  | post (queue : String) (next : TaskSource)
  | exit (queue : String)
  | probe (queue : String)
  | stats (queue : String)
  | raise (signal : String)
  | wait (signal : String) (bound : WaitBound)

/-- How a call on a thread of its own answers. -/
inductive CallMode where
  | tryInvoke
  | asyncInvoke

inductive Step where
  | object (slot : String) (balance : Int64)
  | objectGet (slot : String)
  | objectForget (slot : String)
  | callable (slot : String) (source : CallableSource)
  | callableClone (slot other : String)
  | call (slot : String) (args : List Value)
  | callableEq (slot other : String)
  | callableGroups (slots : List String)
  | callableDebug (slot : String)
  | gateOpen (gate : String)
  | gateEntered (gate : String) (count : Nat)
  | log
  | logAwait (length : Nat)
  | pause
  | signalNew (slot : String)
  | signalRaise (slot : String) (times : Nat)
  | signalReset (slot : String)
  | signalPending (slot : String)
  | signalWait (slot : String) (bound : WaitBound)
  | signalWaitRaised (slot : String) (bound : WaitBound) (times : Nat)
  | signalCrowd (slot : String) (waiters before times : Nat) (bound : WaitBound)
  | queue (slot name : String) (source : QueueSource)
  | queueInfo (slot : String)
  | parkedLen (slot : String)
  | parkedAwait (slot : String) (length : Nat)
  | parkedRun (slot : String) (index : Nat)
  | parkedRunAll (slot : String)
  | parkedDropAll (slot : String)
  | handoffJoin (slot : String)
  | worker (slot : String) (spec : SpecSource)
  | post (slot : String) (task : TaskSource)
  | stats (slot : String)
  | pending (slot : String)
  | isOpen (slot : String)
  | sync (slot : String)
  | pendingAwait (slot : String) (pending : Nat)
  | workerDebug (slot : String)
  | exit (slot : String)
  | drop (slot : String)
  | race (slot : String) (callers calls seed : Nat)
  | delegate (slot : String) (source : DelegateSource)
  | invoke (slot : String) (args : List Value)
  | tryInvoke (slot : String) (args : List Value)
  | asyncInvoke (slot : String) (args : List Value)
  | timedInvoke (slot : String) (args : List Value)
  | start (call slot : String) (args : List Value) (mode : CallMode)
  | join (call : String)
  | delegateState (slot : String)
  | delegateConfig (slot : String)
  | delegateClone (slot other : String)
  | delegateCallable (slot other : String)
  | delegateEq (slot other : String)
  | delegateDebug (slot : String)
  | delegateDrop (slot : String)
  | storm (slot : String) (callers calls : Nat)

end CrossCall.Script
