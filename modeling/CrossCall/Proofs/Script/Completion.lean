import CrossCall.Proofs.Script.Exchange
import CrossCall.Proofs.Watches

/-! Nothing shuts out the end of a call that a worker runs. Wherever the two threads stand, the
worker's thread can go on until the attempt is over: the locks it needs are free, or the caller is
about to free them. From then on the caller needs nothing but its own steps. -/

namespace CrossCall.Script

open CrossCall.Script.Action

namespace Exchange

variable {e : Exchange} {s s' : Call.Scene (List Value) Value} {p : Call.Party (List Value) Value}
  {c : Action (Except InvokeError Value)} {o : Option (Action Bool)} {b b' : Action Unit}
  {w : World}
  {k : Except Payload (Except InvokeError Value) → Action Bool} {name : String}
  {r : Except Payload Value} {stand stand' : Call.TargetStand Value}

/-- The two threads, the caller at `c` and the worker's at `o`, can bring the call to its end. -/
abbrev Completes (e : Exchange) (k : Except Payload (Except InvokeError Value) → Action Bool)
    (s : Call.Scene (List Value) Value) (c : Action (Except InvokeError Value))
    (o : Option (Action Bool)) (w : World) : Prop :=
  Machine.Finishes e.caller e.server k (drainTurn e.worker) s.now c o w

/-! ### The caller alone -/

/-- What the scene's caller can do the thread can do. -/
theorem Meets.going_of_move (h : e.Meets s p c w)
    (hm : s.move (.stepCaller e.call false) = some s') :
    ∃ p' c' w', c.step ⟨e.caller, s.now, false, 0⟩ w = .going w' c' ∧ e.Meets s' p' c' w' ∧
      s'.now = s.now ∧ s'.items = s.items ∧ s'.attempts = s.attempts ∧ w.Beside [e.call] w' := by
  rw [Call.Scene.move_stepCaller h.endless.party] at hm
  have hcalls := h.calls
  generalize hold : p.caller = stand at hcalls
  have hscene := hm
  simp only [Call.Scene.stepCaller, hold, h.endless.bound] at hm
  cases hcalls with
  | releasing | naming | telling => cases hm
  | calling hcalling =>
    cases hcalling with
    | reporting | returned => cases hm
    | collecting since pc =>
      simp only at hm
      have hthread := h.thread
      split at hm
      · cases hm
      · next call pc' hstep =>
        obtain rfl := Option.some.inj hm
        rw [hthread] at hstep
        refine ⟨_, _, _, Program.going_on h.call hstep, h.putCall hscene (.collecting _ pc'),
          rfl, rfl, rfl, World.beside_putCall (.head _) w _⟩
      · next call outcome hstep =>
        obtain rfl := Option.some.inj hm
        rw [hthread] at hstep
        refine ⟨_, _, _, Program.finished_on h.call hstep,
          h.putCall hscene (calling_afterCollect e.queue .infinite outcome), rfl, rfl, rfl,
          World.beside_putCall (.head _) w _⟩

theorem completes_of_comesBack (hne : e.caller ≠ e.server) (h : e.Meets s p c w)
    (hv : e.Serves s o w) (hback : s.ComesBack e.call) : e.Completes k s c o w := by
  obtain ⟨n, t, p', outcome, ht, hp', hreturned⟩ := hback
  induction n generalizing s p c w with
  | zero =>
    obtain rfl := Option.some.inj ht
    obtain rfl := Option.some.inj (h.endless.party.symm.trans hp')
    have hcalls := h.calls
    rw [hreturned] at hcalls
    cases hcalls with
    | calling hcalling =>
      cases hcalling with
      | returned => exact .ended (r := .ok outcome) rfl
      | reporting _ event =>
        refine .own hne rfl (.ended (r := .ok outcome) rfl)
  | succ n ih =>
    obtain ⟨u, hm, hu⟩ := Option.bind_eq_some_iff.mp ht
    obtain ⟨p₁, c', w', hs, hmeets, hnow, hitems, hattempts, hb⟩ := h.going_of_move hm
    refine .own hne hs ?_
    rw [← hnow]
    exact ih hmeets (hv.beside hb hitems hattempts) hu

/-- The worker has done with the call, and the caller waits for the answer or has it. -/
theorem completes_collecting (hne : e.caller ≠ e.server) (h : e.Meets s p c w)
    (hc : p.caller ≠ .handing) (hv : e.Serves s o w)
    (ha : s.attempts = [⟨e.server, e.envelope, .over (some r)⟩]) : e.Completes k s c o w :=
  completes_of_comesBack hne h hv (h.endless.comesBack ha rfl rfl hc)

theorem completes_enqueued (hne : e.caller ≠ e.server)
    (h : e.Meets s p ((report (.enqueued name)).bind fun _ => e.answered (.ok ())) w)
    (hc : p.caller = .handing) (hv : e.Serves s o w)
    (ha : s.attempts = [⟨e.server, e.envelope, .over (some r)⟩]) :
    e.Completes k s ((report (.enqueued name)).bind fun _ => e.answered (.ok ())) o w := by
  have hmeets : e.Meets (s.putCaller e.call (.collecting none (.waiting .arriving)))
      { p with caller := .collecting none (.waiting .arriving) } (e.answered (.ok ()))
      (w.report (.enqueued name)) :=
    ⟨h.endless.accept hc, h.thread, h.call, .calling (.collecting none (.waiting .arriving))⟩
  have hserves : e.Serves (s.putCaller e.call (.collecting none (.waiting .arriving))) o
      (w.report (.enqueued name)) := hv.beside (World.beside_report _ w _) rfl rfl
  have hcompletes : e.Completes k (s.putCaller e.call (.collecting none (.waiting .arriving)))
      (e.answered (.ok ())) o (w.report (.enqueued name)) :=
    completes_collecting hne hmeets nofun hserves ha
  exact .own hne rfl hcompletes

theorem completes_naming (hne : e.caller ≠ e.server) (h : e.Meets s p (e.handedIn (.ok ())) w)
    (hc : p.caller = .handing) (hv : e.Serves s o w)
    (ha : s.attempts = [⟨e.server, e.envelope, .over (some r)⟩]) :
    e.Completes k s (e.handedIn (.ok ())) o w := by
  have hmeets : e.Meets s p ((report (.enqueued (w.workers[e.worker]?.elim "" Worker.name))).bind
      fun _ => e.answered (.ok ())) w :=
    ⟨h.endless, h.thread, h.call, hc ▸ .telling _⟩
  exact .own hne rfl (completes_enqueued hne hmeets hc hv ha)

/-- Once the worker has done with the call, the caller needs nobody. -/
theorem completes_served (hne : e.caller ≠ e.server) (h : e.Meets s p c w)
    (hidle : Idle e.worker o) (hw : w.waiting e.worker = some []) (hQ : e.after r w.objects)
    (ha : s.attempts = [⟨e.server, e.envelope, .over (some r)⟩]) : e.Completes k s c o w := by
  have hserves : e.Serves s o w := .served hidle hw hQ ha
  have hcalls := h.calls
  generalize hold : p.caller = stand at hcalls
  cases hcalls with
  | releasing =>
    obtain ⟨x, hx, -⟩ := Option.map_eq_some_iff.mp hw
    have hb : w.Beside [e.call] ((World.workerPart e.worker).put w { x with entrance := none }) :=
      World.beside_putWorker _ hx rfl
    have hmeets : e.Meets s p (e.handedIn (.ok ()))
        ((World.workerPart e.worker).put w { x with entrance := none }) :=
      ⟨h.endless, h.thread, h.call, hold ▸ .naming⟩
    refine .own hne (Program.finished_on hx rfl) ?_
    exact completes_naming hne hmeets hold (hserves.beside hb rfl rfl) ha
  | naming => exact completes_naming hne h hold hserves ha
  | telling name => exact completes_enqueued hne h hold hserves ha
  | calling hcalling => exact completes_collecting hne h (hold ▸ hcalling.ne_handing) hserves ha

/-! ### The worker's thread, and the caller where it is in the way -/

/-- A caller about to look at the permits goes on from there. -/
theorem Meets.exists_move_of_looking (h : e.Meets s p c w) (hl : p.caller.isLooking) :
    ∃ s', s.move (.stepCaller e.call false) = some s' ∧
      ∀ p', s'.parties[e.call]? = some p' → p'.caller.isLooking = false := by
  rw [Call.Scene.move_stepCaller h.endless.party]
  have hput (call : Call Value) (caller : Call.CallerStand Value) (hc : caller.isLooking = false)
      (p' : Call.Party (List Value) Value)
      (hp' : ((s.putCall e.call call).putCaller e.call caller).parties[e.call]? = some p') :
      p'.caller.isLooking = false := by
    rw [Call.Scene.parties_put h.endless.party, Option.some.injEq] at hp'
    exact hp' ▸ hc
  generalize hold : p.caller = stand at hl
  cases stand with
  | collecting since pc =>
    cases pc with
    | waiting pc =>
      cases pc with
      | looking deadline cause =>
        simp only [Call.Scene.stepCaller, hold, Call.collectStep, Signal.waitStep]
        by_cases hn : 0 < p.call.signal.permits
        · simp only [if_pos hn]
          exact ⟨_, rfl, hput _ _ rfl⟩
        · by_cases hcause : cause = .expiry
          · simp only [if_neg hn, if_pos hcause]
            exact ⟨_, rfl, hput _ _ rfl⟩
          · simp only [if_neg hn, if_neg hcause]
            exact ⟨_, rfl, hput _ _ rfl⟩
      | _ => cases hl
    | _ => cases hl
  | _ => cases hl

/-- The worker's thread takes a step of the attempt. -/
theorem Meets.serve {call : Call Value} (hne : e.caller ≠ e.server) (h : e.Meets s p c w)
    (ha : s.attempts = [⟨e.server, e.envelope, stand⟩])
    (hstep : b.step ⟨e.server, s.now, false, 0⟩ w =
      .going ((World.callPart e.call).put w call) b')
    (hscene : s.stepAttempt 0 ⟨e.server, s.now, false, 0⟩ e.call p.call stand =
      some ((s.putCall e.call call).putAttempt 0 stand'))
    (hnext : ∀ s', e.Meets s' { p with call } c ((World.callPart e.call).put w call) →
      s'.attempts = [⟨e.server, e.envelope, stand'⟩] → e.Completes k s' c
        (some (serving e.number e.worker name b')) ((World.callPart e.call).put w call)) :
    e.Completes k s c (some (serving e.number e.worker name b)) w := by
  obtain ⟨hmeets, hattempts⟩ := h.putAttempt ha hscene
  have hserving := Program.step_around (isAround_serving e.number e.worker name) hstep
  have hcompletes := hnext _ hmeets hattempts
  exact .other hne hserving hcompletes

def delivering (e : Exchange) (r : Except Payload Value) (pc : Call.DeliverPc) : Action Unit :=
  .perform ((Call.deliver (r.mapError Payload.message)).on (World.callPart e.call)) pc .pure

theorem completes_releasing (hne : e.caller ≠ e.server) (h : e.Meets s p c w)
    (hw : w.waiting e.worker = some []) (hQ : e.after r w.objects)
    (ha : s.attempts = [⟨e.server, e.envelope, .delivering r .releasing⟩]) :
    e.Completes k s c (some (serving e.number e.worker name (e.delivering r .releasing))) w :=
  h.serve hne ha (Program.finished_on h.call rfl) rfl fun _ hmeets ha =>
    completes_served hne hmeets (.tidying (tidy_serving (.pure ()) _ _ name)) hw hQ ha

theorem completes_notifying (hne : e.caller ≠ e.server) (h : e.Meets s p c w)
    (hw : w.waiting e.worker = some []) (hQ : e.after r w.objects)
    (ha : s.attempts = [⟨e.server, e.envelope, .delivering r (.raising .notifying)⟩]) :
    e.Completes k s c
      (some (serving e.number e.worker name (e.delivering r (.raising .notifying)))) w :=
  h.serve hne ha (Program.going_on h.call rfl) rfl fun _ hmeets ha =>
    completes_releasing hne hmeets hw hQ ha

theorem completes_adding (hne : e.caller ≠ e.server) (h : e.Meets s p c w)
    (hw : w.waiting e.worker = some []) (hQ : e.after r w.objects)
    (ha : s.attempts = [⟨e.server, e.envelope, .delivering r (.raising .adding)⟩]) :
    e.Completes k s c (some (serving e.number e.worker name (e.delivering r (.raising .adding))))
      w :=
  h.serve hne ha (Program.going_on h.call rfl) rfl fun _ hmeets ha =>
    completes_notifying hne hmeets hw hQ ha

theorem completes_raising_of_free (hne : e.caller ≠ e.server) (h : e.Meets s p c w)
    (hw : w.waiting e.worker = some []) (hQ : e.after r w.objects)
    (ha : s.attempts = [⟨e.server, e.envelope, .delivering r (.raising .locking)⟩])
    (hl : p.caller.isLooking = false) :
    e.Completes k s c (some (serving e.number e.worker name (e.delivering r (.raising .locking))))
      w := by
  have hfree := h.endless.signal_free ha rfl rfl hl
  have hdeliver : Call.deliverStep (r.mapError Payload.message) ⟨e.server, s.now, false, 0⟩ p.call
      (.raising .locking) = .going { p.call with
        signal := { p.call.signal with holder := some e.server } } (.raising .adding) := by
    simp only [Call.deliverStep, Signal.raiseStep, hfree, Option.isSome_none, Bool.false_eq_true,
      if_false]
  have hscene : s.stepAttempt 0 ⟨e.server, s.now, false, 0⟩ e.call p.call
      (.delivering r (.raising .locking)) = some ((s.putCall e.call { p.call with
        signal := { p.call.signal with holder := some e.server } }).putAttempt 0
        (.delivering r (.raising .adding))) := by
    simp only [Call.Scene.stepAttempt, hdeliver]
  exact h.serve hne ha (Program.going_on h.call hdeliver) hscene fun _ hmeets ha =>
    completes_adding hne hmeets hw hQ ha

theorem completes_raising (hne : e.caller ≠ e.server) (h : e.Meets s p c w)
    (hw : w.waiting e.worker = some []) (hQ : e.after r w.objects)
    (ha : s.attempts = [⟨e.server, e.envelope, .delivering r (.raising .locking)⟩]) :
    e.Completes k s c (some (serving e.number e.worker name (e.delivering r (.raising .locking))))
      w := by
  cases hl : p.caller.isLooking with
  | false => exact completes_raising_of_free hne h hw hQ ha hl
  | true =>
    -- The caller holds the lock of the permits, and gives it back by its next step.
    obtain ⟨s', hm, hlook⟩ := h.exists_move_of_looking hl
    obtain ⟨p', c', w', hs, hmeets, hnow, -, hattempts, hb⟩ := h.going_of_move hm
    refine .own hne hs ?_
    rw [← hnow]
    exact completes_raising_of_free hne hmeets ((hb.waiting e.worker).trans hw) (hb.objects ▸ hQ)
      (hattempts.trans ha) (hlook p' hmeets.endless.party)

theorem completes_storing (hne : e.caller ≠ e.server) (h : e.Meets s p c w)
    (hw : w.waiting e.worker = some []) (hQ : e.after r w.objects)
    (ha : s.attempts = [⟨e.server, e.envelope, .delivering r .storing⟩]) :
    e.Completes k s c (some (serving e.number e.worker name (e.delivering r .storing))) w :=
  h.serve hne ha (Program.going_on h.call rfl) rfl fun _ hmeets ha =>
    completes_raising hne hmeets hw hQ ha

theorem completes_telling {payload : Payload} (hne : e.caller ≠ e.server) (h : e.Meets s p c w)
    (hw : w.waiting e.worker = some []) (hQ : e.after (.error payload) w.objects)
    (ha : s.attempts = [⟨e.server, e.envelope, .delivering (.error payload) .storing⟩]) :
    e.Completes k s c (some (serving e.number e.worker name
      ((report (.targetPanicked e.callable.text payload.message)).bind fun _ =>
        e.delivering (.error payload) .storing))) w := by
  have hmeets : e.Meets s p c (w.report (.targetPanicked e.callable.text payload.message)) :=
    h.world rfl
  refine .other hne (Program.step_around (isAround_serving _ _ name) rfl) ?_
  exact completes_storing hne hmeets hw hQ ha

theorem completes_concluding (hne : e.caller ≠ e.server) (h : e.Meets s p c w)
    (hw : w.waiting e.worker = some []) (hQ : e.after r w.objects)
    (ha : s.attempts = [⟨e.server, e.envelope, .concluding r .holding⟩]) :
    e.Completes k s c (some (serving e.number e.worker name
      (.perform (Call.conclude.on (World.callPart e.call)) .holding
        (afterConclude e.call e.callable r)))) w := by
  obtain ⟨hphase, -⟩ := h.endless.running ha rfl rfl
  have hconclude : Call.concludeStep ⟨e.server, s.now, false, 0⟩ p.call .holding =
      .finished p.call true := by
    simp only [Call.concludeStep, hphase, Phase.isAbandoned, Bool.false_eq_true, if_false]
  have hscene : s.stepAttempt 0 ⟨e.server, s.now, false, 0⟩ e.call p.call (.concluding r .holding) =
      some ((s.putCall e.call p.call).putAttempt 0 (.delivering r .storing)) := by
    simp only [Call.Scene.stepAttempt, hconclude]
  refine h.serve hne ha (Program.finished_on h.call hconclude) hscene fun _ hmeets ha => ?_
  cases r with
  | ok v => exact completes_storing hne hmeets hw hQ ha
  | error payload => exact completes_telling hne hmeets hw hQ ha

theorem completes_afterCallable (hne : e.caller ≠ e.server) (h : e.Meets s p c w)
    (hw : w.waiting e.worker = some []) (hQ : e.after r w.objects)
    (ha : s.attempts = [⟨e.server, e.envelope, .concluding r .locking⟩]) :
    e.Completes k s c (some (serving e.number e.worker name
      (afterCallable e.call e.callable r))) w := by
  obtain ⟨-, hunserved⟩ := h.endless.running ha rfl rfl
  have hfree := h.endless.free ha rfl rfl hunserved
  have hconclude : Call.concludeStep ⟨e.server, s.now, false, 0⟩ p.call .locking =
      .going { p.call with holder := some e.server } .holding := by
    simp only [Call.concludeStep, hfree, Option.isSome_none, Bool.false_eq_true, if_false]
  have hscene : s.stepAttempt 0 ⟨e.server, s.now, false, 0⟩ e.call p.call (.concluding r .locking) =
      some ((s.putCall e.call { p.call with holder := some e.server }).putAttempt 0
        (.concluding r .holding)) := by
    simp only [Call.Scene.stepAttempt, hconclude]
  exact h.serve hne ha (Program.going_on h.call hconclude) hscene fun _ hmeets ha =>
    completes_concluding hne hmeets hw hQ ha

/-- The callable comes to its end by steps of its own, where need be at a later time. -/
theorem completes_running {body : Action Value} (hne : e.caller ≠ e.server) (h : e.Meets s p c w)
    (hw : w.waiting e.worker = some [])
    (ha : s.attempts = [⟨e.server, e.envelope, .running⟩])
    (hbody : body.Ends e.server (World.Beside [e.call]) (World.Confined [e.call])
      (fun r w => e.after r w.objects) w) :
    e.Completes k s c (some (serving e.number e.worker name
      (body.attempt.bind (afterCallable e.call e.callable)))) w := by
  induction hbody generalizing s p with
  | @there body w hp =>
    obtain ⟨r, hr, hQ⟩ := hp w (.refl _ w)
    have hmeets : e.Meets (s.putAttempt 0 (.concluding r .locking)) p c w :=
      ⟨h.endless.finish ha rfl r, h.thread, h.call, h.calls⟩
    have hafter : e.Completes k (s.putAttempt 0 (.concluding r .locking)) c
        (some (serving e.number e.worker name (afterCallable e.call e.callable r))) w :=
      completes_afterCallable hne hmeets hw hQ (Call.Scene.Endless.attempts_put ha)
    cases body with
    | pure v => cases hr; exact hafter
    | unwind payload => cases hr; exact hafter
    | _ => cases hr
  | @step body w hcan hguar _ ih =>
    obtain ⟨later, hlater⟩ := hcan w (.refl _ w)
    obtain ⟨w', body', hs⟩ := hlater ⟨e.server, max s.now later, false, 0⟩ rfl (Nat.le_max_right ..)
    have hconfined := hguar _ w w' body' (.refl _ w) rfl hs
    have hserving := Program.step_around (isAround_callable e name) hs
    refine .tick (Nat.le_max_left s.now later) (.other hne hserving ?_)
    have hmeets := (h.tick later).world (hconfined.calls e.call (.head _))
    refine ih _ w w' body' (.refl _ w) rfl hs hmeets ?_ ha
    rw [World.waiting, hconfined.workers]
    exact hw

theorem completes_passing (hne : e.caller ≠ e.server)
    (hcallable : Answers e.callable e.args e.before e.after) (h : e.Meets s p c w)
    (hw : w.waiting e.worker = some []) (ho : w.objects = e.before)
    (ha : s.attempts = [⟨e.server, e.envelope, .entering .holding⟩]) :
    e.Completes k s c (some (serving e.number e.worker name
      (.perform (Call.enter.on (World.callPart e.call)) .holding
        (afterGate e.call e.callable (e.callable.target.run e.args))))) w := by
  have henter := h.enter_passes ha ⟨e.server, s.now, false, 0⟩
  have hscene := h.stepAttempt_passes ha ⟨e.server, s.now, false, 0⟩
  refine h.serve hne ha (Program.finished_on h.call henter) hscene fun _ hmeets ha => ?_
  have hlt := (Array.getElem?_eq_some_iff.mp hmeets.call).1
  refine completes_running hne hmeets hw ha (hcallable e.server [e.call] _ ho fun j hj => ?_)
  rwa [List.mem_singleton.mp hj]

theorem completes_entering {pc : LockPc} (hne : e.caller ≠ e.server)
    (hcallable : Answers e.callable e.args e.before e.after) (h : e.Meets s p c w)
    (hw : w.waiting e.worker = some []) (ho : w.objects = e.before)
    (ha : s.attempts = [⟨e.server, e.envelope, .entering pc⟩]) :
    e.Completes k s c (some (serving e.number e.worker name
      (.perform (Call.enter.on (World.callPart e.call)) pc
        (afterGate e.call e.callable (e.callable.target.run e.args))))) w := by
  cases pc with
  | holding => exact completes_passing hne hcallable h hw ho ha
  | locking =>
    have henter := h.enter_locks ha (m := ⟨e.server, s.now, false, 0⟩) rfl
    have hscene := h.stepAttempt_locks ha (m := ⟨e.server, s.now, false, 0⟩) rfl
    exact h.serve hne ha (Program.going_on h.call henter) hscene fun _ hmeets ha =>
      completes_passing hne hcallable hmeets hw ho ha

theorem completes_taken (hne : e.caller ≠ e.server)
    (hcallable : Answers e.callable e.args e.before e.after) (h : e.Meets s p c w)
    (hw : w.waiting e.worker = some []) (ho : w.objects = e.before)
    (ha : s.attempts = [⟨e.server, e.envelope, .entering .locking⟩]) (name : String) :
    e.Completes k s c (some (afterReceive e.worker name (some e.item))) w := by
  rw [e.afterReceive_item name]
  exact completes_entering hne hcallable h hw ho ha

theorem completes_coming {q : Action Bool} (hne : e.caller ≠ e.server)
    (hcallable : Answers e.callable e.args e.before e.after) (h : e.Meets s p c w)
    (hq : Draining e.worker .receiving q) (hw : w.waiting e.worker = some [e.item])
    (hi : s.items = [e.envelope]) (ha : s.attempts = []) (ho : w.objects = e.before) :
    e.Completes k s c (some q) w := by
  have hreceiving (name : String) : e.Completes k s c (some ((onWorker e.worker
      (.guarded fun _ x => x.receive)).bind (afterReceive e.worker name))) w := by
    obtain ⟨x, hx, hitems⟩ := Option.map_eq_some_iff.mp hw
    have hreceive : (Routine.guarded fun _ (x : Worker Item) => x.receive).step
        ⟨e.server, s.now, false, 0⟩ x () = .finished { x with items := [] } (some e.item) := by
      simp only [Routine.guarded, Worker.receive, hitems]
    obtain ⟨hmeets, hwaiting⟩ := h.takes hx hi ha
    have hcompletes := completes_taken (k := k) hne hcallable hmeets hwaiting ho rfl name
    exact .other hne (Program.finished_on hx hreceive) hcompletes
  have hturning : e.Completes k s c (some (drainTurn e.worker)) w :=
    .other hne rfl (hreceiving _)
  cases hq with
  | turning => exact hturning
  | receiving name => exact hreceiving name
  | turned => exact .turn hne rfl hturning

theorem completes_queued {q : Action Bool} (hne : e.caller ≠ e.server)
    (hcallable : Answers e.callable e.args e.before e.after) (h : e.Meets s p c w)
    (hq : AtRest e.worker q) (hw : w.waiting e.worker = some [e.item])
    (hi : s.items = [e.envelope]) (ha : s.attempts = []) (ho : w.objects = e.before) :
    e.Completes k s c (some q) w := by
  have htelling (name : String) : e.Completes k s c
      (some ((report (.started name)).bind fun _ => .pure true)) w := by
    have hmeets : e.Meets s p c (w.report (.started name)) := h.world rfl
    have hcompletes : e.Completes k s c (some (.pure true)) (w.report (.started name)) :=
      completes_coming hne hcallable hmeets .turned hw hi ha ho
    exact .other hne rfl hcompletes
  cases hq with
  | starting =>
    obtain ⟨x, hx, -⟩ := Option.map_eq_some_iff.mp hw
    refine .other hne ?_ (htelling x.name)
    rw [step_firstTurn, hx]
    rfl
  | telling name => exact htelling name
  | coming hcoming => exact completes_coming hne hcallable h hcoming hw hi ha ho

theorem Meets.completes (hne : e.caller ≠ e.server)
    (hcallable : Answers e.callable e.args e.before e.after) (h : e.Meets s p c w)
    (hv : e.Serves s o w) : e.Completes k s c o w := by
  cases hv with
  | queued hrest hw hi ha ho => exact completes_queued hne hcallable h hrest hw hi ha ho
  | served hidle hw hQ ha => exact completes_served hne h hidle hw hQ ha
  | serving name hserving hw ha =>
    cases hserving with
    | entering pc ho => exact completes_entering hne hcallable h hw ho ha
    | running r pc k hbody => exact completes_running hne h hw ha hbody
    | ending hb hr hQ =>
      cases hb with
      | concluding result pc =>
        cases hr
        cases pc with
        | locking => exact completes_afterCallable hne h hw hQ ha
        | holding => exact completes_concluding hne h hw hQ ha
      | telling payload => cases hr; exact completes_telling hne h hw hQ ha
      | delivering result pc =>
        cases hr
        cases pc with
        | storing => exact completes_storing hne h hw hQ ha
        | releasing => exact completes_releasing hne h hw hQ ha
        | raising pc =>
          cases pc with
          | locking => exact completes_raising hne h hw hQ ha
          | adding => exact completes_adding hne h hw hQ ha
          | notifying => exact completes_notifying hne h hw hQ ha
      | reporting | ended => cases hr

end Exchange
end CrossCall.Script
