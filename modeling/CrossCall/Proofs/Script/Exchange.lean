import CrossCall.Proofs.Call.Endless
import CrossCall.Proofs.Script.OnTheSpot
import CrossCall.Proofs.Script.Tidying

/-! A call and the worker that runs it. From the moment at which the item is with the worker, the
two threads take the steps of the caller and of the one attempt in a scene: every step of either is one
of the scene or touches nothing that the other depends on. So what the scenes say of calls without a
deadline holds of the two threads. -/

namespace CrossCall.Call

variable {V : Type}

/-- The callable has ended with `r`, and the attempt is not over. -/
def TargetStand.EndsWith (r : Except Payload V) : TargetStand V → Prop
  | .concluding result _ | .delivering result _ => result = r
  | _ => False

theorem TargetStep.endsWith {m : Moment} {c c' : Call V} {stand stand' : TargetStand V}
    {r : Except Payload V} (h : TargetStep m c stand c' stand') (hs : stand.EndsWith r) :
    stand'.EndsWith r ∨ stand' = .over (some r) := by
  cases h with
  | lockGate | pass | skip => cases hs
  | discard result | release result => cases hs; exact .inr rfl
  | _ => exact .inl hs

end CrossCall.Call

namespace CrossCall.Script

open CrossCall.Script.Action

/-- A call that a worker is to run. -/
structure Exchange where
  /-- The thread that makes the call. -/
  caller : ThreadId
  /-- The thread of the worker. -/
  server : ThreadId
  worker : Nat
  queue : Queue
  callable : Callable
  args : List Value
  call : Nat
  /-- Under which number the item's handles are kept. -/
  number : Nat
  /-- The objects that the callable finds. -/
  before : World
  /-- How the callable ends, and which objects it leaves then. -/
  after : Except Payload Value → World → Prop

namespace Exchange

def envelope (e : Exchange) : Call.Envelope (List Value) := ⟨e.call, e.args⟩

def item (e : Exchange) : Item := ⟨e.number, .envelope e.call e.callable e.args⟩

/-- The caller's way on once the queue has answered. -/
def answered (e : Exchange) : Except DispatchError Unit → Action (Except InvokeError Value) :=
  afterEnqueue e.call e.queue .infinite

/-- The caller's way on once the worker has the item. -/
def handedIn (e : Exchange) (result : Except DispatchError Unit) :
    Action (Except InvokeError Value) :=
  Program.bind (do
    if result.isOk then report (.enqueued (← workerName e.worker)) else letGo e.number
    return result) e.answered

/-- What is left of the call for its caller, told by where the caller stands. -/
inductive Calls (e : Exchange) :
    Call.CallerStand Value → Action (Except InvokeError Value) → Prop where
  | releasing : Calls e .handing (.perform ((Worker.enqueue e.item).on (World.workerPart e.worker))
      .releasing e.handedIn)
  | naming : Calls e .handing (e.handedIn (.ok ()))
  | telling (name : String) :
      Calls e .handing ((report (.enqueued name)).bind fun _ => e.answered (.ok ()))
  | calling {stand : Call.CallerStand Value} {p : Action (Except InvokeError Value)} :
      Calling e.call e.queue .infinite stand p → Calls e stand p

/-- What is left of running the item, told by where the attempt stands. -/
inductive Serving (e : Exchange) : Call.TargetStand Value → Action Unit → World → Prop where
  | entering (pc : LockPc) {w : World} : w.objects = e.before →
      Serving e (.entering pc) (.perform (Call.enter.on (World.callPart e.call)) pc
        (afterGate e.call e.callable (e.callable.target.run e.args))) w
  | running {ρ : Type} (r : Routine World ρ) (pc : r.Pc) (k : ρ → Action Value) {w : World} :
      (Program.perform r pc k).Ends e.server (World.Beside [e.call]) (World.Confined [e.call])
        (fun r w => e.after r w.objects) w →
      Serving e .running ((Program.perform r pc k).attempt.bind (afterCallable e.call e.callable)) w
  | ending {stand : Call.TargetStand Value} {r : Except Payload Value} {p : Action Unit}
      {w : World} : Attempting e.call e.callable stand p → stand.EndsWith r →
      e.after r w.objects → Serving e stand p w

/-- The caller's side of the exchange is that of the scene. -/
structure Meets (e : Exchange) (s : Call.Scene (List Value) Value)
    (p : Call.Party (List Value) Value) (c : Action (Except InvokeError Value)) (w : World) :
    Prop where
  endless : s.Endless e.call p
  thread : p.thread = e.caller
  call : w.calls[e.call]? = some p.call
  calls : e.Calls p.caller c

/-- The worker's side of the exchange is that of the scene: the item waits, runs or is done with. -/
inductive Serves (e : Exchange) (s : Call.Scene (List Value) Value) :
    Option (Action Bool) → World → Prop where
  | queued {q : Action Bool} {w : World} : AtRest e.worker q →
      w.waiting e.worker = some [e.item] → s.items = [e.envelope] → s.attempts = [] →
      w.objects = e.before → Serves e s (some q) w
  | serving {stand : Call.TargetStand Value} {p : Action Unit} {w : World} (name : String) :
      Serving e stand p w → w.waiting e.worker = some [] →
      s.attempts = [⟨e.server, e.envelope, stand⟩] →
      Serves e s (some (serving e.number e.worker name p)) w
  | served {r : Except Payload Value} {q : Option (Action Bool)} {w : World} : Idle e.worker q →
      w.waiting e.worker = some [] → e.after r w.objects →
      s.attempts = [⟨e.server, e.envelope, .over (some r)⟩] → Serves e s q w

end Exchange

/-! ### The caller -/

namespace World

variable {own : List Nat} {w : World} {i v : Nat}

theorem beside_report (own : List Nat) (w : World) (e : Event) : w.Beside own (w.report e) :=
  ⟨rfl, rfl, fun _ _ => rfl, rfl⟩

theorem beside_putCall (h : i ∈ own) (w : World) (c : Call Value) :
    w.Beside own ((callPart i).put w c) :=
  ⟨rfl, Array.size_setIfInBounds, fun _ hj => calls_putCall_ne (ne_of_mem_of_not_mem h hj) w c, rfl⟩

theorem beside_putWorker {x x' : Worker Item} (own : List Nat) (hx : w.workers[v]? = some x)
    (h : x'.unlocked = x.unlocked) : w.Beside own ((workerPart v).put w x') := by
  refine ⟨rfl, rfl, fun _ _ => rfl, List.ext_getElem? fun j => ?_⟩
  show ((w.workers.set v x').map Worker.unlocked)[j]? = _
  have hlt := (List.getElem?_eq_some_iff.mp hx).1
  rw [List.getElem?_map, List.getElem?_map, List.getElem?_set]
  split
  · next hj =>
    subst hj
    rw [hx, Option.map_some, Option.map_some, h]
  · rfl

end World

namespace Exchange

variable {e : Exchange} {s : Call.Scene (List Value) Value} {p : Call.Party (List Value) Value}
  {c c' : Action (Except InvokeError Value)} {q q' : Action Bool} {w w' : World} {stray : Bool}
  {pick : Nat}

namespace Meets

theorem tick (h : e.Meets s p c w) (later : Instant) :
    e.Meets { s with now := max s.now later } p c w :=
  ⟨h.endless.tick later, h.thread, h.call, h.calls⟩

/-- What leaves the call as it is leaves the caller's side as it is. -/
theorem world (h : e.Meets s p c w) (hw : w'.calls[e.call]? = w.calls[e.call]?) :
    e.Meets s p c w' :=
  ⟨h.endless, h.thread, hw.trans h.call, h.calls⟩

theorem putCall {stand : Call.CallerStand Value} {call : Call Value} (h : e.Meets s p c w)
    (hs : s.stepCaller e.call ⟨p.thread, s.now, stray, 0⟩ p =
      some ((s.putCall e.call call).putCaller e.call stand))
    (hc : Calling e.call e.queue .infinite stand c') :
    e.Meets ((s.putCall e.call call).putCaller e.call stand) { p with call, caller := stand } c'
      ((World.callPart e.call).put w call) := by
  have hmove := (Call.Scene.move_stepCaller h.endless.party stray).trans hs
  exact ⟨h.endless.stepCaller hmove, h.thread, World.calls_putCall_self h.call, .calling hc⟩

/-- A step of the caller is one of the scene's caller, the queue's answer, or one that the scene
does not see; and what runs beside it does not mind. -/
theorem going (h : e.Meets s p c w) (hs : c.step ⟨e.caller, s.now, stray, pick⟩ w = .going w' c') :
    ∃ s' p', e.Meets s' p' c' w' ∧ s'.now = s.now ∧ s'.items = s.items ∧
      s'.attempts = s.attempts ∧ w.Beside [e.call] w' := by
  obtain ⟨hendless, hthread, hcall, hcalls⟩ := h
  generalize hold : p.caller = stand at hcalls
  cases hcalls with
  | releasing =>
    obtain ⟨x, x', hx, rfl, ⟨pc, hstep, -⟩ | ⟨y, hstep, rfl⟩⟩ := Program.step_on hs
    · cases hstep
    · obtain ⟨rfl, rfl⟩ := Progress.finished.inj hstep
      refine ⟨s, p, ⟨hendless, hthread, hcall, hold ▸ .naming⟩, rfl, rfl, rfl, ?_⟩
      exact World.beside_putWorker _ hx rfl
  | naming =>
    obtain ⟨rfl, rfl⟩ := Program.Outcome.going.inj hs
    have htelling := Calls.telling (e := e) (w.workers[e.worker]?.elim "" Worker.name)
    exact ⟨s, p, ⟨hendless, hthread, hcall, hold ▸ htelling⟩, rfl, rfl, rfl, .refl _ w⟩
  | telling name =>
    obtain ⟨rfl, rfl⟩ := Program.Outcome.going.inj hs
    refine ⟨_, _, ⟨hendless.accept hold, hthread, hcall, ?_⟩, rfl, rfl, rfl,
      World.beside_report _ w _⟩
    exact .calling (.collecting none (.waiting .arriving))
  | calling hcalling =>
    rcases hcalling.step (A := List Value) hs with
      ⟨event, rfl, hnext⟩ | ⟨x, x', stand', hx, rfl, hnext, hscene⟩
    · refine ⟨s, p, ⟨hendless, hthread, hcall, hold ▸ .calling hnext⟩, rfl, rfl, rfl, ?_⟩
      exact World.beside_report _ w event
    · obtain rfl := Option.some.inj (hcall.symm.trans hx)
      have hstep := hscene s p hendless.bound rfl hold
      have hpick := Call.Scene.stepCaller_pick s e.call ⟨e.caller, s.now, stray, 0⟩ p pick
      have hscene := hpick.symm.trans hstep
      rw [← hthread] at hscene
      have hmeets : e.Meets s p c w := ⟨hendless, hthread, hcall, hold ▸ .calling hcalling⟩
      exact ⟨_, _, hmeets.putCall hscene hnext, rfl, rfl, rfl, World.beside_putCall (.head _) w _⟩

end Meets
end Exchange

/-! ### The worker -/

theorem Attempting.exists_perform {i : Nat} {callable : Callable} {stand : Call.TargetStand Value}
    {p : Action Unit} {r : Except Payload Value} (h : Attempting i callable stand p)
    (hs : stand.EndsWith r) :
    ∃ (ρ : Type) (routine : Routine World ρ) (pc : routine.Pc) (k : ρ → Action Unit),
      p = .perform routine pc k := by
  cases h with
  | concluding | telling | delivering => exact ⟨_, _, _, _, rfl⟩
  | _ => cases hs

theorem Attempting.tidy {i : Nat} {callable : Callable} {result : Option (Except Payload Value)}
    {p : Action Unit} (h : Attempting i callable (.over result) p) : Tidy p := by
  cases h with
  | reporting _ event => exact tidy_report event
  | ended => exact .pure ()

namespace Exchange

variable {e : Exchange} {s : Call.Scene (List Value) Value} {p : Call.Party (List Value) Value}
  {c : Action (Except InvokeError Value)} {q q' : Action Bool} {b : Action Unit}
  {body : Action Value} {w w' : World} {stray : Bool} {pick : Nat}
  {stand stand' : Call.TargetStand Value}

theorem Meets.putAttempt {call : Call Value} (h : e.Meets s p c w)
    (ha : s.attempts = [⟨e.server, e.envelope, stand⟩])
    (hs : s.stepAttempt 0 ⟨e.server, s.now, stray, pick⟩ e.call p.call stand =
      some ((s.putCall e.call call).putAttempt 0 stand')) :
    e.Meets ((s.putCall e.call call).putAttempt 0 stand') { p with call } c
        ((World.callPart e.call).put w call) ∧
      ((s.putCall e.call call).putAttempt 0 stand').attempts =
        [⟨e.server, e.envelope, stand'⟩] := by
  have hs := (Call.Scene.stepAttempt_stray s 0 ⟨e.server, s.now, stray, pick⟩ e.call p.call stand
    false).trans hs
  refine ⟨⟨h.endless.stepAttempt ha rfl hs, h.thread, World.calls_putCall_self h.call, h.calls⟩, ?_⟩
  exact Call.Scene.Endless.attempts_put (s := s.putCall e.call call) ha

/-- The callable runs on, or has ended, and the attempt goes on to its end without a step. -/
theorem Meets.runs (h : e.Meets s p c w) (ha : s.attempts = [⟨e.server, e.envelope, .running⟩])
    (hw : w.waiting e.worker = some [])
    (hbody : body.Ends e.server (World.Beside [e.call]) (World.Confined [e.call])
      (fun r w => e.after r w.objects) w) (name : String) :
    ∃ s', e.Meets s' p c w ∧ s'.now = s.now ∧ e.Serves s' (some (serving e.number e.worker name
      (body.attempt.bind (afterCallable e.call e.callable)))) w := by
  have hended (r : Except Payload Value) (hr : body.Ended r)
      (hb : body.attempt.bind (afterCallable e.call e.callable) =
        afterCallable e.call e.callable r) :
      ∃ s', e.Meets s' p c w ∧ s'.now = s.now ∧ e.Serves s' (some (serving e.number e.worker name
        (body.attempt.bind (afterCallable e.call e.callable)))) w := by
    refine ⟨s.putAttempt 0 (.concluding r .locking),
      ⟨h.endless.finish ha rfl r, h.thread, h.call, h.calls⟩, rfl, ?_⟩
    refine .serving name ?_ hw (Call.Scene.Endless.attempts_put ha)
    rw [hb]
    exact .ending (.concluding r .locking) rfl (hbody.of_ended (.refl _ w) hr)
  cases body with
  | pure v => exact hended (.ok v) rfl rfl
  | unwind payload => exact hended (.error payload) rfl rfl
  | perform r pc k => exact ⟨s, h, rfl, .serving name (.running r pc k hbody) hw ha⟩
  | fork opening again k =>
    cases hbody with
    | there hp => obtain ⟨r, hr, -⟩ := hp w (.refl _ w); cases hr
    | step hcan _ _ =>
      obtain ⟨later, hlater⟩ := hcan w (.refl _ w)
      obtain ⟨w', q, hs⟩ := hlater ⟨e.server, later, false, 0⟩ rfl (Nat.le_refl _)
      cases hs

/-- Nobody is in the way of the attempt at the gate. -/
theorem Meets.enter_locks {m : Moment} (h : e.Meets s p c w)
    (ha : s.attempts = [⟨e.server, e.envelope, .entering .locking⟩]) (hm : m.self = e.server) :
    Call.enter.step m p.call LockPc.locking =
      .going { p.call with holder := some e.server } .holding := by
  obtain ⟨-, hunserved⟩ := h.endless.dispatched ha rfl rfl
  have hfree := h.endless.free ha rfl rfl hunserved
  show Call.enterStep m p.call .locking = _
  rw [Call.enterStep, hfree, hm]
  rfl

theorem Meets.enter_passes (h : e.Meets s p c w)
    (ha : s.attempts = [⟨e.server, e.envelope, .entering .holding⟩]) (m : Moment) :
    Call.enter.step m p.call LockPc.holding =
      .finished { p.call with phase := .running, holder := none } true := by
  obtain ⟨hphase, -⟩ := h.endless.dispatched ha rfl rfl
  show Call.enterStep m p.call .holding = _
  rw [Call.enterStep, hphase]
  rfl

theorem Meets.stepAttempt_locks {m : Moment} (h : e.Meets s p c w)
    (ha : s.attempts = [⟨e.server, e.envelope, .entering .locking⟩]) (hm : m.self = e.server) :
    s.stepAttempt 0 m e.call p.call (.entering .locking) =
      some ((s.putCall e.call { p.call with holder := some e.server }).putAttempt 0
        (.entering .holding)) := by
  have henter : Call.enterStep m p.call .locking = _ := h.enter_locks ha hm
  simp only [Call.Scene.stepAttempt, henter]

theorem Meets.stepAttempt_passes (h : e.Meets s p c w)
    (ha : s.attempts = [⟨e.server, e.envelope, .entering .holding⟩]) (m : Moment) :
    s.stepAttempt 0 m e.call p.call (.entering .holding) =
      some ((s.putCall e.call { p.call with phase := .running, holder := none }).putAttempt 0
        .running) := by
  have henter : Call.enterStep m p.call .holding = _ := h.enter_passes ha m
  simp only [Call.Scene.stepAttempt, henter]

/-- What the worker's thread does with the item. -/
theorem afterReceive_item (e : Exchange) (name : String) :
    afterReceive e.worker name (some e.item) = serving e.number e.worker name
      (.perform (Call.enter.on (World.callPart e.call)) .locking
        (afterGate e.call e.callable (e.callable.target.run e.args))) := by
  show serving e.number e.worker name (executeCall e.call e.callable _) = _
  rw [executeCall_eq]
  rfl

/-- The callable stands behind the gate inside the item. -/
theorem isAround_callable (e : Exchange) (name : String) :
    Program.IsAround fun body : Action Value => serving e.number e.worker name
      (body.attempt.bind (afterCallable e.call e.callable)) :=
  (isAround_serving _ _ name).comp ((Program.isAround_bind _).comp Program.isAround_attempt)

theorem Serving.going_entering {pc : LockPc} {name : String}
    (hcallable : Answers e.callable e.args e.before e.after) (h : e.Meets s p c w)
    (ha : s.attempts = [⟨e.server, e.envelope, .entering pc⟩]) (hw : w.waiting e.worker = some [])
    (ho : w.objects = e.before)
    (hs : (Program.perform (Call.enter.on (World.callPart e.call)) pc
      (afterGate e.call e.callable (e.callable.target.run e.args))).step
        ⟨e.server, s.now, stray, pick⟩ w = .going w' b) :
    ∃ s' p', e.Meets s' p' c w' ∧ s'.now = s.now ∧
      e.Serves s' (some (serving e.number e.worker name b)) w' := by
  obtain ⟨x, x', hx, rfl, hstep⟩ := Program.step_on hs
  obtain rfl := Option.some.inj (h.call.symm.trans hx)
  cases pc with
  | locking =>
    have henter := h.enter_locks ha (m := ⟨e.server, s.now, stray, pick⟩) rfl
    rcases hstep with ⟨pc', hstep, rfl⟩ | ⟨y, hstep, -⟩
    · obtain ⟨rfl, rfl⟩ := Progress.going.inj (henter.symm.trans hstep)
      have hscene := h.stepAttempt_locks ha (m := ⟨e.server, s.now, stray, pick⟩) rfl
      obtain ⟨hmeets, hattempts⟩ := h.putAttempt ha hscene
      exact ⟨_, _, hmeets, rfl, .serving name (.entering .holding ho) hw hattempts⟩
    · cases henter.symm.trans hstep
  | holding =>
    have henter := h.enter_passes ha ⟨e.server, s.now, stray, pick⟩
    rcases hstep with ⟨pc', hstep, -⟩ | ⟨y, hstep, rfl⟩
    · cases henter.symm.trans hstep
    · obtain ⟨rfl, rfl⟩ := Progress.finished.inj (henter.symm.trans hstep)
      obtain ⟨hmeets, hattempts⟩ :=
        h.putAttempt ha (h.stepAttempt_passes ha ⟨e.server, s.now, stray, pick⟩)
      have hlt := (Array.getElem?_eq_some_iff.mp hmeets.call).1
      have hbody := hcallable e.server [e.call]
        ((World.callPart e.call).put w { p.call with phase := .running, holder := none }) ho
        fun j hj => by rwa [List.mem_singleton.mp hj]
      obtain ⟨s', hmeets', hnow, hserves⟩ := hmeets.runs hattempts hw hbody name
      exact ⟨s', _, hmeets', hnow, hserves⟩

theorem Serving.going_running {ρ : Type} {r : Routine World ρ} {pc : r.Pc} {k : ρ → Action Value}
    {name : String} (h : e.Meets s p c w) (ha : s.attempts = [⟨e.server, e.envelope, .running⟩])
    (hw : w.waiting e.worker = some [])
    (hbody : (Program.perform r pc k).Ends e.server (World.Beside [e.call])
      (World.Confined [e.call]) (fun r w => e.after r w.objects) w)
    (hs : (Program.perform r pc k).step ⟨e.server, s.now, stray, pick⟩ w = .going w' body) :
    ∃ s' p', e.Meets s' p' c w' ∧ s'.now = s.now ∧ e.Serves s' (some (serving e.number e.worker name
      (body.attempt.bind (afterCallable e.call e.callable)))) w' := by
  cases hbody with
  | there hp =>
    obtain ⟨r, hr, -⟩ := hp w (.refl _ w)
    cases hr
  | step _ hguar hnext =>
    have hconfined := hguar _ w w' body (.refl _ w) rfl hs
    have hwaiting : w'.waiting e.worker = some [] := by
      rw [World.waiting, hconfined.workers]
      exact hw
    have hmeets := h.world (hconfined.calls e.call (.head _))
    obtain ⟨s', hmeets', hnow, hserves⟩ :=
      hmeets.runs ha hwaiting (hnext _ w w' body (.refl _ w) rfl hs) name
    exact ⟨s', p, hmeets', hnow, hserves⟩

theorem Serving.going_ending {r : Except Payload Value} {b' : Action Unit} {name : String}
    (h : e.Meets s p c w) (ha : s.attempts = [⟨e.server, e.envelope, stand⟩])
    (hw : w.waiting e.worker = some []) (hb : Attempting e.call e.callable stand b)
    (hr : stand.EndsWith r) (hQ : e.after r w.objects)
    (hs : b.step ⟨e.server, s.now, stray, pick⟩ w = .going w' b') :
    ∃ s' p', e.Meets s' p' c w' ∧ s'.now = s.now ∧
      e.Serves s' (some (serving e.number e.worker name b')) w' := by
  rcases hb.step (A := List Value) hs with
    ⟨event, rfl, hnext⟩ | ⟨x, x', stand', hx, rfl, hnext, hscene⟩
  · exact ⟨s, p, h.world rfl, rfl, .serving name (.ending hnext hr hQ) hw ha⟩
  · obtain rfl := Option.some.inj (h.call.symm.trans hx)
    obtain ⟨hmeets, hattempts⟩ := h.putAttempt ha (hscene s 0)
    refine ⟨_, _, hmeets, rfl, ?_⟩
    have hends : stand'.EndsWith r ∨ stand' = .over (some r) := by
      obtain ⟨call, stand'', hstep, hput⟩ := Call.Scene.stepAttempt_cases (hscene s 0)
      have hsame := congrArg Call.Scene.attempts hput
      rw [hattempts, Call.Scene.Endless.attempts_put (s := s.putCall e.call call) ha] at hsame
      obtain rfl : stand' = stand'' := by simpa using hsame
      exact hstep.endsWith hr
    rcases hends with hends | rfl
    · exact .serving name (.ending hnext hends hQ) hw hattempts
    · exact .served (.tidying (tidy_serving hnext.tidy e.number e.worker name)) hw hQ hattempts

/-- The worker's thread takes the item. -/
theorem Meets.takes {x : Worker Item} (h : e.Meets s p c w)
    (hx : w.workers[e.worker]? = some x) (hi : s.items = [e.envelope]) (ha : s.attempts = []) :
    e.Meets { s with items := [], attempts := [{ thread := e.server, envelope := e.envelope }] } p c
        ((World.workerPart e.worker).put w { x with items := [] }) ∧
      ((World.workerPart e.worker).put w { x with items := [] }).waiting e.worker = some [] := by
  refine ⟨⟨h.endless.take hi ha e.server, h.thread, h.call, h.calls⟩, ?_⟩
  have hlt := (List.getElem?_eq_some_iff.mp hx).1
  show (w.workers.set e.worker _)[e.worker]?.map Worker.items = _
  rw [List.getElem?_set_self hlt]
  rfl

namespace Serves

/-- A step of the worker's thread is one of the scene's attempt, the taking of the item, the end of
the callable, or one that the scene does not see. -/
theorem going (hcallable : Answers e.callable e.args e.before e.after) (h : e.Meets s p c w)
    (hv : e.Serves s (some q) w)
    (hs : q.step ⟨e.server, s.now, stray, pick⟩ w = .going w' q') :
    ∃ s' p', e.Meets s' p' c w' ∧ s'.now = s.now ∧ e.Serves s' (some q') w' := by
  cases hv with
  | queued hrest hw hi ha ho =>
    rcases hrest.going hs with ⟨⟨events, rfl⟩, hrest⟩ | ⟨x, result, x', name, hx, hr, rfl, rfl⟩
    · exact ⟨s, p, h.world rfl, rfl, .queued hrest hw hi ha ho⟩
    · have hitems : x.items = [e.item] := by
        obtain ⟨y, hy, hitem⟩ := Option.map_eq_some_iff.mp hw
        exact Option.some.inj (hy.symm.trans hx) ▸ hitem
      simp only [Worker.receive, hitems, Option.some.injEq, Prod.mk.injEq] at hr
      obtain ⟨rfl, rfl⟩ := hr
      obtain ⟨hmeets, hwaiting⟩ := h.takes hx hi ha
      rw [e.afterReceive_item name]
      exact ⟨_, p, hmeets, rfl, .serving name (.entering .locking ho) hwaiting rfl⟩
  | @serving stand b w name hserving hw ha =>
    cases hserving with
    | entering pc ho =>
      obtain ⟨b', hb, rfl⟩ := Program.of_step_around (isAround_serving _ _ name) _ _ _ hs
      exact Serving.going_entering hcallable h ha hw ho hb
    | running r pc k hbody =>
      obtain ⟨body, hb, rfl⟩ := Program.of_step_around (isAround_callable e name) r pc k hs
      exact Serving.going_running h ha hw hbody hb
    | ending hb hr hQ =>
      obtain ⟨ρ, r, pc, k, rfl⟩ := hb.exists_perform hr
      obtain ⟨b', hstep, rfl⟩ := Program.of_step_around (isAround_serving _ _ name) r pc k hs
      exact Serving.going_ending h ha hw hb hr hQ hstep
  | served hidle hw hQ ha =>
    obtain ⟨htidies, hnext⟩ := hidle.going hw hs
    refine ⟨s, p, h.world (by rw [htidies.calls]), rfl, .served hnext ?_ ?_ ha⟩
    · exact (htidies.waiting e.worker).trans hw
    · exact htidies.objects ▸ hQ

/-- A turn that is over is followed by another one, unless the call is done with and the thread has
left its loop. -/
theorem halted {m : Moment} {r : Except Payload Bool} (hv : e.Serves s (some q) w)
    (hs : q.step m w = .halted r) :
    (r = .ok true ∧ e.Serves s (some (drainTurn e.worker)) w) ∨
      r ≠ .ok true ∧ e.Serves s none w := by
  cases hv with
  | queued hrest hw hi ha ho =>
    exact .inl ⟨hrest.halted hs, .queued (.coming .turning) hw hi ha ho⟩
  | serving name hserving hw ha =>
    cases hserving with
    | entering => exact absurd hs (Program.perform_ne_halted _ _ _ m w _)
    | running => exact absurd hs (Program.perform_ne_halted _ _ _ m w _)
    | ending hb hr =>
      obtain ⟨ρ, routine, pc, k, rfl⟩ := hb.exists_perform hr
      exact absurd hs (Program.perform_ne_halted _ _ _ m w _)
  | served hidle hw hQ ha =>
    by_cases hr : r = .ok true
    · exact .inl ⟨hr, .served (.coming .turning) hw hQ ha⟩
    · exact .inr ⟨hr, .served .gone hw hQ ha⟩

theorem ne_forking {m : Moment} (hv : e.Serves s (some q) w) (opening again : Action Bool)
    (next : ThreadId → Action Bool) : q.step m w' ≠ .forking opening again next := by
  cases hv with
  | queued hrest => exact hrest.ne_forking opening again next
  | serving name hserving =>
    cases hserving with
    | entering => exact Program.perform_ne_forking _ _ _ m w' _ _ _
    | running => exact Program.perform_ne_forking _ _ _ m w' _ _ _
    | ending hb hr =>
      obtain ⟨ρ, routine, pc, k, rfl⟩ := hb.exists_perform hr
      exact Program.perform_ne_forking _ _ _ m w' _ _ _
  | served hidle => exact hidle.ne_forking opening again next

/-- What the caller does leaves the worker's side as it is. -/
theorem beside {s' : Call.Scene (List Value) Value} {o : Option (Action Bool)}
    (hv : e.Serves s o w) (hb : w.Beside [e.call] w') (hitems : s'.items = s.items)
    (hattempts : s'.attempts = s.attempts) : e.Serves s' o w' := by
  have hwaiting := hb.waiting e.worker
  have hobjects := hb.objects
  cases hv with
  | queued hrest hw hi ha ho =>
    exact .queued hrest (hwaiting.trans hw) (hitems.trans hi) (hattempts.trans ha)
      (hobjects.trans ho)
  | serving name hserving hw ha =>
    refine .serving name ?_ (hwaiting.trans hw) (hattempts.trans ha)
    cases hserving with
    | entering pc ho => exact .entering pc (hobjects.trans ho)
    | running r pc k hbody =>
      exact .running r pc k (hbody.stable (fun _ _ _ h h' => h.trans h') hb)
    | ending hb hr hQ => exact .ending hb hr (hobjects ▸ hQ)
  | served hidle hw hQ ha =>
    exact .served hidle (hwaiting.trans hw) (hobjects ▸ hQ) (hattempts.trans ha)

end Serves

/-- When the call has ended for its caller, the callable was run, and how it ended and the objects
it left go together. -/
theorem Meets.ended {o : Option (Action Bool)} {r : Except Payload (Except InvokeError Value)}
    (h : e.Meets s p c w) (hv : e.Serves s o w) (hr : c.Ended r) :
    ∃ r₀, r = .ok (throughQueue r₀) ∧ e.after r₀ w.objects := by
  obtain ⟨hendless, hthread, hcall, hcalls⟩ := h
  generalize hold : p.caller = stand at hcalls
  cases hcalls with
  | calling hcalling =>
    cases hcalling with
    | returned outcome =>
      cases hv with
      | queued hrest hw hi ha ho => exact absurd hold (hendless.ne_returned ha outcome)
      | serving name hserving hw ha =>
        obtain ⟨r₀, -, hover⟩ := hendless.reports ha rfl hold
        cases hover
        cases hserving with
        | ending hb hends => cases hends
      | served hidle hw hQ ha =>
        obtain ⟨r₀, hreports, hover⟩ := hendless.reports ha rfl hold
        cases hover
        cases hr
        cases hreports <;> exact ⟨_, rfl, hQ⟩
    | _ => cases hr
  | _ => cases hr

end Exchange
end CrossCall.Script
