import CrossCall.Callable
import CrossCall.Failure
import CrossCall.Queue
import CrossCall.Value
import CrossCall.WaitBound

/-!
Delegates: a callable with the queue it is to run on and the bound of each call, and the outcome of
the last call that was to be recorded. Only that record ever changes; a clone starts without one.
-/

namespace CrossCall

structure Delegate (T τ : Type) where
  callable : Callable T τ
  /-- Where calls are handed to; without a queue they run where they are made. -/
  queue : Option Queue
  bound : WaitBound
  /-- The outcome of the last recorded call. -/
  last : Option (Except InvokeError Value) := none

namespace Delegate

variable {T τ : Type}

def direct (callable : Callable T τ) : Delegate T τ :=
  { callable, queue := none, bound := .infinite }

def clone (d : Delegate T τ) : Delegate T τ := { d with last := none }

def record (d : Delegate T τ) (outcome : Except InvokeError Value) : Delegate T τ :=
  { d with last := some outcome }

/-- A recorded call has ended: the delegate after it, and what the call gives. An outcome, a value or
an error, replaces the record; a call that unwinds into the caller leaves it as it was. -/
def afterInvoke (d : Delegate T τ) (result : Except Payload (Except InvokeError Value)) :
    Delegate T τ × Except Payload (Option Value) :=
  match result with
  | .ok outcome => (d.record outcome, .ok outcome.toOption)
  | .error p => (d, .error p)

def isSuccess (d : Delegate T τ) : Bool :=
  match d.last with
  | some (.ok _) => true
  | _ => false

def returnValue (d : Delegate T τ) : Option Value :=
  match d.last with
  | some (.ok value) => some value
  | _ => none

def lastError (d : Delegate T τ) : Option InvokeError :=
  match d.last with
  | some (.error error) => some error
  | _ => none

/-- The same callable on the same queue; the bound and the record do not count. -/
def same [DecidableEq T] (a b : Delegate T τ) : Bool :=
  a.queue.map Queue.number = b.queue.map Queue.number && a.callable.same b.callable

def text (d : Delegate T τ) : String :=
  "WaitDelegate \x7b callable: " ++ d.callable.text ++
    ", queue: " ++ d.queue.elim "None" (fun q => s!"Some({Text.quoted q.name})") ++
    ", timeout: " ++ d.bound.text ++ s!", success: {d.isSuccess} \x7d"

end Delegate
end CrossCall
