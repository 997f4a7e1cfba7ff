import CrossCall.Proofs.Script.Attempting

/-! Who makes a call through a queue takes the steps of a caller. Handing the item in is a program
of the queue's, and its answer is what a scene leaves to the queue. From then on every step that the
program takes on the call is the one that a scene gives the caller; its other steps report
something. -/

namespace CrossCall.Script

open CrossCall.Script.Action

/-- What is left once the wait for a call has ended. -/
def afterCollect (q : Queue) (bound : WaitBound) (outcome : Except InvokeError Value) :
    Action (Except InvokeError Value) := do
  if !outcome.isOk then report (.failed q.name bound)
  return outcome

/-- What is left once the queue has answered. -/
def afterEnqueue (i : Nat) (q : Queue) (bound : WaitBound) :
    Except DispatchError Unit → Action (Except InvokeError Value)
  | .error e => (report (.refused q.name e)).bind fun _ => .pure (.error (.dispatch e))
  | .ok () => (onCall i (Call.collect bound)).bind (afterCollect q bound)

theorem callThrough_eq (q : Queue) (bound : WaitBound) (callable : Callable) (args : List Value)
    (body : Action Value) :
    callThrough q bound callable args body = newCall.bind fun i =>
      (report (.dispatched q.name bound)).bind fun _ =>
        (enqueue q (.envelope i callable args) none (executeCall i callable body)).bind
          (afterEnqueue i q bound) := rfl

/-- What is left of call `i` once the queue has answered, told by where its caller stands. -/
inductive Calling (i : Nat) (q : Queue) (bound : WaitBound) :
    Call.CallerStand Value → Action (Except InvokeError Value) → Prop where
  | collecting (since : Option Instant) (pc : Call.CollectPc) :
      Calling i q bound (.collecting since pc)
        (.perform ((Call.collect bound).on (World.callPart i)) pc (afterCollect q bound))
  | reporting (outcome : Except InvokeError Value) (e : Event) :
      Calling i q bound (.returned outcome) ((report e).bind fun _ => .pure outcome)
  | returned (outcome : Except InvokeError Value) :
      Calling i q bound (.returned outcome) (.pure outcome)

variable {A : Type} {i : Nat} {q : Queue} {bound : WaitBound} {stand : Call.CallerStand Value}
  {p p' : Action (Except InvokeError Value)} {w w' : World} {m : Moment}

theorem Calling.ne_handing (h : Calling i q bound stand p) : stand ≠ .handing := by
  cases h <;> exact nofun

theorem calling_afterCollect (q : Queue) (bound : WaitBound) (outcome : Except InvokeError Value) :
    Calling i q bound (.returned outcome) (afterCollect q bound outcome) := by
  cases outcome with
  | ok value => exact .returned (.ok value)
  | error e => exact .reporting (.error e) _

/-- The program takes a step on the call only where a scene lets the caller take the same. -/
theorem Calling.step (h : Calling i q bound stand p) (hs : p.step m w = .going w' p') :
    (∃ e, w' = w.report e ∧ Calling i q bound stand p') ∨
      ∃ c c' stand', w.calls[i]? = some c ∧ w' = (World.callPart i).put w c' ∧
        Calling i q bound stand' p' ∧ ∀ (s : Call.Scene A Value) (party : Call.Party A Value),
          party.bound = bound → party.call = c → party.caller = stand →
          s.stepCaller i m party = some ((s.putCall i c').putCaller i stand') := by
  cases h with
  | collecting since pc =>
    obtain ⟨c, c', hc, hw, ⟨pc', hstep, rfl⟩ | ⟨outcome, hstep, rfl⟩⟩ := Program.step_on hs
    · refine .inr ⟨c, c', _, hc, hw, .collecting (some (since.getD m.now)) pc', ?_⟩
      rintro s party rfl rfl hcaller
      change Call.collectStep party.bound m party.call pc = _ at hstep
      simp only [Call.Scene.stepCaller, hcaller, hstep]
    · refine .inr ⟨c, c', _, hc, hw, calling_afterCollect q bound outcome, ?_⟩
      rintro s party rfl rfl hcaller
      change Call.collectStep party.bound m party.call pc = _ at hstep
      simp only [Call.Scene.stepCaller, hcaller, hstep]
  | reporting outcome e =>
    obtain ⟨rfl, rfl⟩ := Program.Outcome.going.inj hs
    exact .inl ⟨e, rfl, .returned outcome⟩
  | returned outcome => cases hs

end CrossCall.Script
