import CrossCall.Word

/-!
Spans of time, to the nanosecond and shorter than 2^64 seconds, and their text: in the largest
unit that leaves a whole part, the rest as a decimal fraction.
-/

namespace CrossCall

structure Span where
  nanos : Nat
  nanos_lt : nanos < 18_446_744_073_709_551_616_000_000_000
  deriving DecidableEq

namespace Span

def zero : Span := ⟨0, by decide⟩

instance : Inhabited Span := ⟨zero⟩

def ofMillis (n : Nat) (h : FitsUnsigned n) : Span := ⟨n * 1_000_000, by omega⟩

/-- The span of whole seconds and the nanoseconds beyond them. -/
def ofParts? (seconds nanos : Nat) : Option Span :=
  if h : FitsUnsigned seconds ∧ nanos < 1_000_000_000 then
    some ⟨seconds * 1_000_000_000 + nanos, by omega⟩
  else none

def seconds (s : Span) : Nat := s.nanos / 1_000_000_000

def subsecond (s : Span) : Nat := s.nanos % 1_000_000_000

/-- Whole milliseconds, the rest dropped. -/
def millis (s : Span) : Nat := s.nanos / 1_000_000

/-- A fraction of so many places without its trailing zeros. -/
def fraction (n places : Nat) : String :=
  let digits := toString n
  let padded := List.replicate (places - digits.length) '0' ++ digits.toList
  let kept := (padded.reverse.dropWhile (· = '0')).reverse
  if n = 0 then "" else "." ++ String.ofList kept

def text (s : Span) : String :=
  if 1_000_000_000 ≤ s.nanos then toString s.seconds ++ fraction s.subsecond 9 ++ "s"
  else if 1_000_000 ≤ s.nanos then
    toString s.millis ++ fraction (s.nanos % 1_000_000) 6 ++ "ms"
  else if 1_000 ≤ s.nanos then
    toString (s.nanos / 1_000) ++ fraction (s.nanos % 1_000) 3 ++ "µs"
  else toString s.nanos ++ "ns"

end Span
end CrossCall
