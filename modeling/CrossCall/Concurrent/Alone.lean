import CrossCall.Concurrent.Program

/-!
Programs that run alone: no other thread takes a step, and no thread is started. The clock may go on
from step to step.
-/

namespace CrossCall.Program

variable {σ α : Type}

/-- Thread `t` brings the program to its end, with this result and this state. -/
inductive Alone (t : ThreadId) : σ → Program σ α → Except Payload α → σ → Prop where
  | halted {s : σ} {p : Program σ α} {r : Except Payload α} (m : Moment) :
    m.self = t → p.step m s = .halted r → Alone t s p r s
  | going {s s' s'' : σ} {p p' : Program σ α} {r : Except Payload α} (m : Moment) :
    m.self = t → p.step m s = .going s' p' → Alone t s' p' r s'' → Alone t s p r s''

end CrossCall.Program
