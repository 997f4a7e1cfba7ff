import CrossCall.Callable
import CrossCall.Failure
import CrossCall.Value
import CrossCall.WaitBound

/-!
Events: what workers and delegates report while they work, with a level, a message and fields that
are all text.
-/

namespace CrossCall

inductive Event where
  /-- About to start the thread of a worker. -/
  | spawning (worker : String) (stackSize : Option UInt64)
  | spawned (worker : String)
  | started (worker : String)
  | ended (worker : String)
  | closed (worker : String)
  | enqueued (worker : String)
  | itemPanicked (worker message : String)
  /-- The call runs where it was made, since the queue is the caller's own. -/
  | invokedInline (queue : String)
  | dispatched (queue : String) (bound : WaitBound)
  | refused (queue : String) (error : DispatchError)
  /-- The wait for a call ended without a value. -/
  | failed (queue : String) (bound : WaitBound)
  /-- The caller had given up before the call began. -/
  | skipped (callable : String)
  /-- The caller gave up while the call ran. -/
  | discarded (callable : String)
  | targetPanicked (callable message : String)
  deriving DecidableEq, Inhabited

namespace Event

def level : Event → String
  | spawning .. | enqueued .. | invokedInline .. | dispatched .. | skipped .. => "TRACE"
  | spawned .. | started .. | ended .. | closed .. | failed .. | discarded .. => "DEBUG"
  | refused .. => "WARN"
  | itemPanicked .. | targetPanicked .. => "ERROR"

def message : Event → String
  | spawning .. => "worker.spawn_named_thread"
  | spawned .. => "worker.thread.spawned"
  | started .. => "worker.thread.start"
  | ended .. => "worker.thread.exit"
  | closed .. => "worker.thread.close"
  | enqueued .. => "worker.thread.enqueue"
  | itemPanicked .. => "worker.thread.item_panicked"
  | invokedInline .. => "delegate.invoke_inline"
  | dispatched .. => "delegate.dispatch"
  | refused .. => "delegate.dispatch_failed"
  | failed .. => "delegate.timeout"
  | skipped .. => "delegate.skip_abandoned"
  | discarded .. => "delegate.result_discarded"
  | targetPanicked .. => "delegate.target_panicked"

def stackText : Option UInt64 → String
  | none => "None"
  | some bytes => s!"Some({bytes.toNat})"

def fields : Event → List (String × String)
  | spawning worker stackSize => [("worker", worker), ("stack_size", stackText stackSize)]
  | spawned worker | started worker | ended worker | closed worker | enqueued worker =>
    [("worker", worker)]
  | itemPanicked worker message => [("worker", worker), ("panic", message)]
  | invokedInline queue => [("queue", queue)]
  | dispatched queue bound | failed queue bound =>
    [("queue", queue), ("timeout_ms", toString bound.toMillis.toInt)]
  | refused queue error => [("queue", queue), ("error", error.message)]
  | skipped callable | discarded callable => [("callable", callable)]
  | targetPanicked callable message => [("callable", callable), ("panic", message)]

def toValue (e : Event) : Value :=
  .list [.text e.level, .text e.message,
    .ofFields (e.fields.map fun f => (f.1, .text f.2))]

/-- Events in the order of their compact texts, whatever the order they were reported in. -/
def sorted (events : List Event) : List Value :=
  let lines := events.map fun e => (e.toValue.compact, e.toValue)
  (lines.mergeSort fun a b => a.1 ≤ b.1).map (·.2)

end Event
end CrossCall
