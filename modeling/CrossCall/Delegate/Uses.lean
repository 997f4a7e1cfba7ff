import CrossCall.Delegate

/-!
What is done with handles of delegates over time. At first there is one handle; a clone is one more.
Calls through a handle end in any way, and only a recorded call can leave a trace on it.
-/

namespace CrossCall.Delegate

variable {T τ : Type}

/-- How a call ends: with an outcome, or by unwinding into the caller. -/
abbrev Ending := Except Payload (Except InvokeError Value)

/-- Handles are known by their numbers. -/
inductive Use where
  /-- A recorded call. -/
  | invoke (handle : Nat) (ending : Ending)
  | tryInvoke (handle : Nat) (ending : Ending)
  | asyncInvoke (handle : Nat) (ending : Ending)
  | clone (handle : Nat)
  /-- Compares two handles, or looks at them. -/
  | compare (handle other : Nat)

/-- The handles after a use. -/
def afterUse (handles : List (Delegate T τ)) : Use → List (Delegate T τ)
  | .invoke k ending => handles.modify k fun d => (d.afterInvoke ending).1
  | .clone k => handles ++ (handles[k]?.map clone).toList
  | .tryInvoke .. | .asyncInvoke .. | .compare .. => handles

def afterUses (handles : List (Delegate T τ)) (uses : List Use) : List (Delegate T τ) :=
  uses.foldl afterUse handles

/-- How the last recorded call through a handle ended. -/
def lastEnding (k : Nat) (uses : List Use) : Option Ending :=
  uses.reverse.findSome? fun
    | .invoke handle ending => if handle = k then some ending else none
    | _ => none

end CrossCall.Delegate
