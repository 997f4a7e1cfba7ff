import CrossCall.LoadError
import CrossCall.Span

/-!
How long a caller waits at most. Outside the program a bound is a number of milliseconds, in which
any negative number stands for a wait without limit.
-/

namespace CrossCall

/-- A point in time, in nanoseconds on the clock that all threads read. -/
abbrev Instant := Nat

/-- The clock counts fewer than 2^63 seconds; later points in time cannot be told. -/
def Instant.limit : Nat := 9_223_372_036_854_775_808_000_000_000

inductive WaitBound where
  | infinite
  | within (span : Span)
  deriving DecidableEq, Inhabited

namespace WaitBound

theorem fitsUnsigned_toNat (n : Int64) : FitsUnsigned n.toInt.toNat := by
  have := Int64.toInt_lt n
  omega

def ofMillis (n : Int64) : WaitBound :=
  if n.toInt < 0 then .infinite
  else .within (Span.ofMillis n.toInt.toNat (fitsUnsigned_toNat n))

/-- The whole milliseconds of a bound, at most 2^63 - 1, or -1 for a wait without limit. -/
def toMillis : WaitBound → Int64
  | .infinite => -1
  | .within span => if FitsSigned span.millis then Int64.ofInt span.millis else Int64.maxValue

def isInfinite : WaitBound → Bool
  | .infinite => true
  | .within _ => false

/-- When a wait that begins at `now` runs out; none if it never does or the clock cannot tell. -/
def deadline (b : WaitBound) (now : Instant) : Option Instant :=
  match b with
  | .infinite => none
  | .within span => if now + span.nanos < Instant.limit then some (now + span.nanos) else none

def text : WaitBound → String
  | .infinite => "Infinite"
  | .within span => s!"Bounded({span.text})"

/-- The outside form of a bound. -/
def save (b : WaitBound) : Value := .int b.toMillis.toInt

/-- Accepts the integers of 64 bits and nothing else. -/
def load (v : Value) : Except LoadError WaitBound :=
  match v with
  | .int n =>
    if FitsSigned n then .ok (ofMillis (Int64.ofInt n))
    else .error (.outOfRange v "i64")
  | _ => .error (.wrongKind v "i64")

end WaitBound
end CrossCall
