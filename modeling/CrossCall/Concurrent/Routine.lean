import CrossCall.WaitBound

/-!
Routines: what one thread does to shared state, one atomic step after another. A routine is a small
machine of its own; where it stands is its program counter, and between two of its steps any other
thread may take steps. What the program does not decide by itself (which parked thread a
notification reaches, a thread that wakes without cause, the clock) is handed to each step.
-/

namespace CrossCall

abbrev ThreadId := Nat

/-- What surrounds an atomic step. -/
structure Moment where
  self : ThreadId
  now : Instant
  /-- Whether a parked thread wakes here although nothing woke it. -/
  stray : Bool := false
  /-- Which of several parked threads a notification reaches. -/
  pick : Nat := 0

inductive Progress (σ π ρ : Type) where
  /-- No step can be taken now. -/
  | blocked
  | going (state : σ) (pc : π)
  | finished (state : σ) (result : ρ)

def Progress.mapState {σ τ π ρ : Type} (f : σ → τ) : Progress σ π ρ → Progress τ π ρ
  | .blocked => .blocked
  | .going s pc => .going (f s) pc
  | .finished s r => .finished (f s) r

structure Routine (σ ρ : Type) : Type 1 where
  Pc : Type
  start : Pc
  step : Moment → σ → Pc → Progress σ Pc ρ
  /-- When a routine that is blocked here may go on by the clock alone. -/
  alarm : Pc → Option Instant := fun _ => none

/-- Where a thread stands in a section that it passes under a lock. -/
inductive LockPc where
  | locking
  | holding
  deriving DecidableEq, Inhabited

/-- A part of a state that may be absent. -/
structure Part (σ τ : Type) where
  get? : σ → Option τ
  put : σ → τ → σ

namespace Routine

variable {σ τ ρ υ : Type}

/-- A routine on a part of the state; it waits while the part is absent. -/
def on (part : Part σ τ) (r : Routine τ ρ) : Routine σ ρ where
  Pc := r.Pc
  start := r.start
  step m s pc :=
    match part.get? s with
    | none => .blocked
    | some t => (r.step m t pc).mapState (part.put s)
  alarm := r.alarm

/-- One atomic step. -/
def atomic (f : Moment → σ → ρ × σ) : Routine σ ρ where
  Pc := Unit
  start := ()
  step m s _ := let (r, s) := f m s; .finished s r

/-- One step that changes nothing. -/
def skip (x : ρ) : Routine σ ρ := atomic fun _ s => (x, s)

/-- One atomic step that has to wait until it is possible. -/
def guarded (f : Moment → σ → Option (ρ × σ)) : Routine σ ρ where
  Pc := Unit
  start := ()
  step m s _ :=
    match f m s with
    | none => .blocked
    | some (r, s) => .finished s r

/-- One routine, and after it the one that its result asks for. -/
def andThen (r : Routine σ ρ) (next : ρ → Routine σ υ) : Routine σ υ where
  Pc := r.Pc ⊕ (x : ρ) × (next x).Pc
  start := .inl r.start
  step m s
    | .inl pc =>
      match r.step m s pc with
      | .blocked => .blocked
      | .going s pc => .going s (.inl pc)
      | .finished s x => .going s (.inr ⟨x, (next x).start⟩)
    | .inr ⟨x, pc⟩ =>
      match (next x).step m s pc with
      | .blocked => .blocked
      | .going s pc => .going s (.inr ⟨x, pc⟩)
      | .finished s y => .finished s y
  alarm
    | .inl pc => r.alarm pc
    | .inr ⟨x, pc⟩ => (next x).alarm pc

/-- A routine that is gone through again as long as it answers true. -/
def repeating (r : Routine σ Bool) : Routine σ Unit where
  Pc := r.Pc
  start := r.start
  step m s pc :=
    match r.step m s pc with
    | .blocked => .blocked
    | .going s pc => .going s pc
    | .finished s true => .going s r.start
    | .finished s false => .finished s ()
  alarm := r.alarm

/-- Lets time pass. -/
def sleep (span : Nat) : Routine σ Unit where
  Pc := Option Instant
  start := none
  step
    | m, s, none => .going s (some (m.now + span))
    | m, s, some t => if t ≤ m.now then .finished s () else .blocked
  alarm pc := pc

end Routine
end CrossCall
