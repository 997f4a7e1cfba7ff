import CrossCall.Concurrent.Routine
import CrossCall.Payload

/-!
Programs of one thread: routines performed in sequence, threads started, and panics that unwind to
whoever catches them. A program that is half way through a routine is again a program, so the rest
of a program is all that has to be kept of a thread.
-/

namespace CrossCall

inductive Program (σ : Type) : Type → Type 1 where
  | pure {α : Type} (value : α) : Program σ α
  /-- Unwinds with a payload. -/
  | unwind {α : Type} (payload : Payload) : Program σ α
  | perform {α ρ : Type} (routine : Routine σ ρ) (pc : routine.Pc) (next : ρ → Program σ α) :
    Program σ α
  /-- Starts a thread that runs `opening`, and then `again` as long as it answers true. -/
  | fork {α : Type} (opening again : Program σ Bool) (next : ThreadId → Program σ α) :
    Program σ α

namespace Program

variable {σ α β ρ : Type}

def bind : Program σ α → (α → Program σ β) → Program σ β
  | pure a, f => f a
  | unwind p, _ => unwind p
  | perform r pc k, f => perform r pc fun x => (k x).bind f
  | fork opening again k, f => fork opening again fun t => (k t).bind f

instance : Monad (Program σ) where
  pure := .pure
  bind := bind

/-- Runs a program and catches the panic that unwinds out of it. -/
def attempt : Program σ α → Program σ (Except Payload α)
  | pure a => pure (.ok a)
  | unwind p => pure (.error p)
  | perform r pc k => perform r pc fun x => (k x).attempt
  | fork opening again k => fork opening again fun t => (k t).attempt

/-- Unwinds with the payload of a failed computation. -/
def ofExcept : Except Payload α → Program σ α
  | .ok a => pure a
  | .error p => unwind p

def run (r : Routine σ ρ) : Program σ ρ := perform r r.start pure

/-- A thread that runs one program and ends. -/
def spawn (body : Program σ Unit) : Program σ ThreadId :=
  fork (body.bind fun _ => pure false) (pure false) pure

def query (f : σ → ρ) : Program σ ρ := run (.atomic fun _ s => (f s, s))

def modify (f : σ → σ) : Program σ Unit := run (.atomic fun _ s => ((), f s))

/-- Waits until the state has an answer. -/
def await (f : σ → Option ρ) : Program σ ρ := run (.guarded fun _ s => (f s).map (·, s))

def awaitThat (f : σ → Bool) : Program σ Unit := await fun s => if f s then some () else none

def self : Program σ ThreadId := run (.atomic fun m s => (m.self, s))

def now : Program σ Instant := run (.atomic fun m s => (m.now, s))

def sleep (span : Nat) : Program σ Unit := run (.sleep span)

/-- What one step of a program comes to. -/
inductive Outcome (σ α : Type) : Type 1 where
  | blocked
  | halted (result : Except Payload α)
  | going (state : σ) (rest : Program σ α)
  | forking (opening again : Program σ Bool) (next : ThreadId → Program σ α)

def step (m : Moment) (s : σ) : Program σ α → Outcome σ α
  | pure a => .halted (.ok a)
  | unwind p => .halted (.error p)
  | perform r pc k =>
    match r.step m s pc with
    | .blocked => .blocked
    | .going s pc => .going s (perform r pc k)
    | .finished s x => .going s (k x)
  | fork opening again k => .forking opening again k

/-- When a blocked program may go on by the clock alone. -/
def alarm : Program σ α → Option Instant
  | perform r pc _ => r.alarm pc
  | _ => none

end Program
end CrossCall
