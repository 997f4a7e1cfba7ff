import CrossCall.Payload

/-!
Why a call, or handing an item to a queue, fails, and the message of each cause.
-/

namespace CrossCall

inductive DispatchError where
  /-- The queue takes no more items. -/
  | closed
  /-- The thread that would run the item could not be started. -/
  | spawn (name source : String)
  deriving DecidableEq, Inhabited

def DispatchError.message : DispatchError → String
  | .closed => "dispatch queue is closed"
  | .spawn name source => s!"failed to spawn worker thread '{name}': {source}"

/-- The message of what lies behind a failure. -/
def DispatchError.source : DispatchError → Option String
  | .closed => none
  | .spawn _ source => some source

inductive InvokeError where
  /-- The caller stopped waiting before the call was done. -/
  | timedOut
  /-- The queue refused the call. -/
  | dispatch (error : DispatchError)
  /-- The callable panicked where it ran. -/
  | panicked (message : String)
  deriving DecidableEq, Inhabited

def InvokeError.message : InvokeError → String
  | .timedOut => "timed out waiting for the target thread"
  | .dispatch error => error.message
  | .panicked message => s!"target function panicked: {message}"

/-- A refusal shows its own source; nothing lies behind the other causes. -/
def InvokeError.source : InvokeError → Option String
  | .dispatch error => error.source
  | _ => none

end CrossCall
