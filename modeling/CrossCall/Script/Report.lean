import CrossCall.Script.World

/-!
How results are written as values, in answers and in logs.
-/

namespace CrossCall.Script

def optionValue : Option Value → Value
  | none => .text "none"
  | some v => .ofFields [("some", v)]

def failureValue (kind message : String) (source : Option String) : Value :=
  .ofFields [("error", .text kind), ("message", .text message),
    ("source", source.elim .null .text)]

def refusalKind : DispatchError → String
  | .closed => "Closed"
  | .spawn .. => "Spawn"

def refusalValue (e : DispatchError) : Value := failureValue (refusalKind e) e.message e.source

def callFailureValue : InvokeError → Value
  | .dispatch e => refusalValue e
  | .timedOut => failureValue "TimedOut" InvokeError.timedOut.message none
  | .panicked message => failureValue "Panicked" (InvokeError.panicked message).message none

def outcomeValue : Except InvokeError Value → Value
  | .ok v => .ofFields [("ok", v)]
  | .error e => callFailureValue e

def panicValue (p : Payload) : Value := .ofFields [("panic", .text p.message)]

def statsValue (s : WorkerStats) : Value :=
  .ofFields [("pending", .int s.pending.toNat), ("executed", .int s.executed.toNat),
    ("panicked", .int s.panicked.toNat)]

def boundValue (b : WaitBound) : Value :=
  let variant := match b with
    | .infinite => .text "infinite"
    | .within span => .list [.int span.seconds, .int span.subsecond]
  .ofFields [("variant", variant), ("as_millis", .int b.toMillis.toInt),
    ("into_i64", .int b.toMillis.toInt), ("is_infinite", .bool b.isInfinite),
    ("serialized", b.save), ("debug", .text b.text)]

def specValue (s : WorkerSpec) : Value :=
  .ofFields [("name", .text s.name), ("serialized", s.save),
    ("is_default", .bool (s = .default))]

def loadFailureValue (e : LoadError) : Value :=
  .ofFields [("error", .text "Deserialize"), ("message", .text e.message)]

/-- What a delegate shows of the last call that it recorded. -/
def stateValue (d : Delegate) : Value :=
  .ofFields [("is_success", .bool d.isSuccess), ("return_value", optionValue d.returnValue),
    ("last_error", d.lastError.elim .null callFailureValue)]

def workerText (name : String) (isOpen : Bool) (s : WorkerStats) : String :=
  s!"WorkerThread \x7b name: {Text.quoted name}, open: {isOpen}, stats: WorkerStats \x7b " ++
    s!"pending: {s.pending}, executed: {s.executed}, panicked: {s.panicked} \x7d \x7d"

end CrossCall.Script
