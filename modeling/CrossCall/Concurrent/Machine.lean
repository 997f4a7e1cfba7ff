import CrossCall.Concurrent.Program

/-!
Threads over one shared state and one clock. A step of the machine is an atomic step of one thread,
or the clock going on; every interleaving of such steps is a run. `Machine.run` follows one of
them: a step takes half a microsecond, a thread goes on until it is blocked, and then the next one
that can takes its turn. When none can, the clock goes on to the first moment at which one may. The
run ends with the first thread.
-/

namespace CrossCall

structure Thread (σ : Type) : Type 1 where
  /-- What is left to do of this turn; nothing once the thread has ended. -/
  rest : Option (Program σ Bool)
  /-- Another turn, taken as long as the last one answered true. -/
  again : Program σ Bool

structure Machine (σ : Type) : Type 1 where
  now : Instant := 0
  shared : σ
  threads : Array (Thread σ)

namespace Machine

variable {σ : Type}

def start (shared : σ) (main : Program σ Bool) : Machine σ :=
  { shared, threads := #[⟨some main, .pure false⟩] }

/-- An atomic step of thread `t`, if it can take one. -/
def step (machine : Machine σ) (t : ThreadId) (stray : Bool := false) (pick : Nat := 0) :
    Option (Machine σ) := do
  let thread ← machine.threads[t]?
  let rest ← thread.rest
  let put := fun (rest : Option (Program σ Bool)) => machine.threads.setIfInBounds t { thread with rest }
  match rest.step ⟨t, machine.now, stray, pick⟩ machine.shared with
  | .blocked => none
  | .halted (.ok true) => some { machine with threads := put (some thread.again) }
  | .halted _ => some { machine with threads := put none }
  | .going shared rest => some { machine with shared, threads := put (some rest) }
  | .forking opening again next =>
    some { machine with
      threads := (put (some (next machine.threads.size))).push ⟨some opening, again⟩ }

/-- The clock goes on to a later moment. -/
def tick (machine : Machine σ) (later : Instant) : Machine σ :=
  { machine with now := max machine.now later }

/-- The clock goes on by what a step takes. -/
def elapse (machine : Machine σ) : Machine σ := machine.tick (machine.now + 500)

/-- The first moment after now at which a thread may go on by the clock alone. -/
def nextAlarm (machine : Machine σ) : Option Instant :=
  machine.threads.foldl (fun soonest thread =>
    match thread.rest.bind Program.alarm with
    | none => soonest
    | some t => if t ≤ machine.now then soonest else some (soonest.elim t (min t))) none

/-- The first thread from `turn` on, and round again, that can take a step, and that step. -/
def findStep (machine : Machine σ) (turn : ThreadId) : Option (ThreadId × Machine σ) :=
  (List.range machine.threads.size).findSome? fun i =>
    let t := (turn + i) % machine.threads.size
    (machine.step t).map (t, ·)

/-- Whether thread `t` has nothing left to do. -/
def hasEnded (machine : Machine σ) (t : ThreadId) : Bool :=
  machine.threads[t]?.all (·.rest.isNone)

/-- At most `fuel` steps; stops early when the first thread has ended or none can ever go on. -/
def run : Nat → ThreadId → Machine σ → Machine σ
  | 0, _, machine => machine
  | fuel + 1, turn, machine =>
    if machine.hasEnded 0 then machine
    else
      match machine.step turn with
      | some machine => run fuel turn machine.elapse
      | none =>
        match machine.findStep turn with
        | some (turn, machine) => run fuel turn machine.elapse
        | none =>
          match machine.nextAlarm with
          | some later => run fuel turn (machine.tick later)
          | none => machine

end Machine
end CrossCall
