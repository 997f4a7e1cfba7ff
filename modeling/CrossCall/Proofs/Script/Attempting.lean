import CrossCall.Call.Scene
import CrossCall.Proofs.Programs
import CrossCall.Script.Dispatch

/-! What runs an item of a call takes the steps of an attempt at it. Where the attempt stands says
what is left of the program. Once the callable has ended, every step that the program takes on the
call is the one that a scene gives such an attempt; its other steps report something. -/

namespace CrossCall.Script

open CrossCall.Script.Action

/-- What is left once it is known whether the caller still waits. -/
def afterConclude (i : Nat) (callable : Callable) (result : Except Payload Value) :
    Bool → Action Unit
  | true => do
    if let .error p := result then report (.targetPanicked callable.text p.message)
    onCall i (Call.deliver (result.mapError Payload.message))
  | false => report (.discarded callable.text)

/-- What is left once the callable has ended. -/
def afterCallable (i : Nat) (callable : Callable) (result : Except Payload Value) : Action Unit :=
  (onCall i Call.conclude).bind (afterConclude i callable result)

/-- What is left behind the gate. -/
def afterGate (i : Nat) (callable : Callable) (body : Action Value) : Bool → Action Unit
  | true => body.attempt.bind (afterCallable i callable)
  | false => report (.skipped callable.text)

theorem executeCall_eq (i : Nat) (callable : Callable) (body : Action Value) :
    executeCall i callable body = (onCall i Call.enter).bind (afterGate i callable body) := by
  show Program.bind (onCall i Call.enter) _ = Program.bind (onCall i Call.enter) _
  congr 1
  funext entered
  cases entered with
  | false => rfl
  | true =>
    show Program.bind body.attempt _ = Program.bind body.attempt _
    congr 1
    funext result
    show Program.bind (onCall i Call.conclude) _ = Program.bind (onCall i Call.conclude) _
    congr 1
    funext wanted
    cases wanted <;> rfl

/-- Whatever the callable does, its panic does not unwind into the thread that runs the item. -/
theorem executeCall_neverUnwinds (i : Nat) (callable : Callable) (body : Action Value) :
    (executeCall i callable body).NeverUnwinds := by
  rw [executeCall_eq]
  refine Program.NeverUnwinds.bind (Program.neverUnwinds_run _) fun entered => ?_
  cases entered with
  | false => exact Program.neverUnwinds_run _
  | true =>
    refine Program.NeverUnwinds.bind (Program.neverUnwinds_attempt body) fun result => ?_
    refine Program.NeverUnwinds.bind (Program.neverUnwinds_run _) fun wanted => ?_
    cases wanted with
    | false => exact Program.neverUnwinds_run _
    | true =>
      cases result with
      | ok value => exact fun _ => trivial
      | error payload => exact fun _ _ => trivial

/-- The item of a call ends by itself, however its callable ends. -/
theorem Item.envelope_returns (n call : Nat) (callable : Callable) (args : List Value) :
    (Item.run ⟨n, .envelope call callable args⟩).Returns (· = .ok ()) := by
  have hbody : (executeCall call callable (callable.target.run args)).Returns fun _ => True :=
    Program.neverUnwinds_iff.mp (executeCall_neverUnwinds call callable _)
  refine hbody.attempt.bind fun result ⟨x, hx, _⟩ => ?_
  exact Program.Returns.bind (P := fun _ => True) (fun _ => trivial) fun _ _ => hx

/-- What is left of an item of call `i` once its callable has ended, told by where the attempt
stands. -/
inductive Attempting (i : Nat) (callable : Callable) :
    Call.TargetStand Value → Action Unit → Prop where
  | concluding (result : Except Payload Value) (pc : LockPc) :
      Attempting i callable (.concluding result pc)
        (.perform (Call.conclude.on (World.callPart i)) pc (afterConclude i callable result))
  | telling (p : Payload) : Attempting i callable (.delivering (.error p) .storing)
      ((report (.targetPanicked callable.text p.message)).bind fun _ =>
        onCall i (Call.deliver (.error p.message)))
  | delivering (result : Except Payload Value) (pc : Call.DeliverPc) :
      Attempting i callable (.delivering result pc)
        (.perform ((Call.deliver (result.mapError Payload.message)).on (World.callPart i)) pc .pure)
  | reporting (result : Option (Except Payload Value)) (e : Event) :
      Attempting i callable (.over result) (report e)
  | ended (result : Option (Except Payload Value)) :
      Attempting i callable (.over result) (.pure ())

variable {A : Type} {i : Nat} {callable : Callable} {stand : Call.TargetStand Value}
  {p p' : Action Unit} {w w' : World} {m : Moment}

theorem attempting_conclude (result : Except Payload Value) :
    Attempting i callable (.delivering result .storing) (afterConclude i callable result true) := by
  cases result with
  | ok value => exact .delivering (.ok value) .storing
  | error payload => exact .telling payload

/-- The program takes a step on the call only where a scene lets the attempt take the same. -/
theorem Attempting.step (h : Attempting i callable stand p) (hs : p.step m w = .going w' p') :
    (∃ e, w' = w.report e ∧ Attempting i callable stand p') ∨
      ∃ c c' stand', w.calls[i]? = some c ∧ w' = (World.callPart i).put w c' ∧
        Attempting i callable stand' p' ∧ ∀ (s : Call.Scene A Value) k,
          s.stepAttempt k m i c stand = some ((s.putCall i c').putAttempt k stand') := by
  cases h with
  | concluding result pc =>
    obtain ⟨c, c', hc, hw, ⟨pc', hstep, rfl⟩ | ⟨wanted, hstep, rfl⟩⟩ := Program.step_on hs
    · refine .inr ⟨c, c', _, hc, hw, .concluding result pc', fun s k => ?_⟩
      change Call.concludeStep m c pc = _ at hstep
      simp only [Call.Scene.stepAttempt, hstep]
    · change Call.concludeStep m c pc = _ at hstep
      cases wanted with
      | true =>
        refine .inr ⟨c, c', _, hc, hw, attempting_conclude result, fun s k => ?_⟩
        simp only [Call.Scene.stepAttempt, hstep]
      | false =>
        refine .inr ⟨c, c', .over (some result), hc, hw, .reporting _ _, fun s k => ?_⟩
        simp only [Call.Scene.stepAttempt, hstep]
  | telling payload =>
    obtain ⟨rfl, rfl⟩ := Program.Outcome.going.inj hs
    exact .inl ⟨_, rfl, .delivering (.error payload) .storing⟩
  | delivering result pc =>
    obtain ⟨c, c', hc, hw, ⟨pc', hstep, rfl⟩ | ⟨u, hstep, rfl⟩⟩ := Program.step_on hs
    · refine .inr ⟨c, c', _, hc, hw, .delivering result pc', fun s k => ?_⟩
      change Call.deliverStep _ m c pc = _ at hstep
      simp only [Call.Scene.stepAttempt, hstep]
    · refine .inr ⟨c, c', .over (some result), hc, hw, .ended _, fun s k => ?_⟩
      change Call.deliverStep _ m c pc = _ at hstep
      simp only [Call.Scene.stepAttempt, hstep]
  | reporting result e =>
    obtain ⟨rfl, rfl⟩ := Program.Outcome.going.inj hs
    exact .inl ⟨e, rfl, .ended result⟩
  | ended result => cases hs

end CrossCall.Script
