import CrossCall.Proofs.Script.Completion

/-! A call on an idle worker, from its beginning. Up to the moment at which the item is with the
worker the worker's thread does nothing to mind; from then on the two threads are the parties of an
exchange. So on a machine on which the other threads have ended the caller comes to the end of the
call. -/

namespace CrossCall.Script

open CrossCall.Script.Action

/-- Worker `v` of the machine is open and has nothing to do, and `u` is its thread. -/
structure IsIdle (machine : Machine World) (v : Nat) (u : ThreadId) : Prop where
  worker : ∃ x, machine.shared.workers[v]? = some x ∧ x.thread = u ∧ x.isOpen = true ∧
    x.ended = false ∧ x.items = [] ∧ x.entrance = none
  thread : ∃ q, machine.threads[u]? = some ⟨some q, drainTurn v⟩ ∧ AtRest v q

/-- Worker `v` keeps its items and stays open or closed as it is. -/
def World.KeepsDoor (v : Nat) (w w' : World) : Prop :=
  w'.workers[v]?.map (fun x => (x.items, x.isOpen)) = w.workers[v]?.map fun x => (x.items, x.isOpen)

theorem World.KeepsDoor.idle {v : Nat} {w w' : World} {x : Worker Item} (h : World.KeepsDoor v w w')
    (hx : w.workers[v]? = some x) :
    ∃ x', w'.workers[v]? = some x' ∧ x'.items = x.items ∧ x'.isOpen = x.isOpen := by
  rw [World.KeepsDoor, hx, Option.map_some] at h
  obtain ⟨x', hx', hsame⟩ := Option.map_eq_some_iff.mp h
  exact ⟨x', hx', congrArg Prod.fst hsame, congrArg Prod.snd hsame⟩

theorem World.Told.trans {w w' w'' : World} (h : w.Told w') (h' : w'.Told w'') : w.Told w'' := by
  obtain ⟨events, rfl⟩ := h
  obtain ⟨events', rfl⟩ := h'
  exact ⟨events', rfl⟩

theorem World.keepsDoor_put {v : Nat} {w : World} {x x' : Worker Item} (hx : w.workers[v]? = some x)
    (hitems : x'.items = x.items) (hopen : x'.isOpen = x.isOpen) :
    World.KeepsDoor v w ((World.workerPart v).put w x') := by
  have hlt := (List.getElem?_eq_some_iff.mp hx).1
  show (w.workers.set v x')[v]?.map _ = _
  rw [List.getElem?_set_self hlt, hx, Option.map_some, Option.map_some, hitems, hopen]

namespace Exchange

variable {e : Exchange} {s : Call.Scene (List Value) Value} {p : Call.Party (List Value) Value}
  {c c' : Action (Except InvokeError Value)} {o : Option (Action Bool)} {q q' : Action Bool}
  {w w' : World} {now : Instant} {stray : Bool} {pick : Nat}
  {k : Except Payload (Except InvokeError Value) → Action Bool}

/-- The caller is about to put the item among those of the worker. -/
structure Sending (e : Exchange) (c : Action (Except InvokeError Value)) (w : World) : Prop where
  rest : c = .perform ((Worker.enqueue e.item).on (World.workerPart e.worker)) .sending e.handedIn
  call : w.calls[e.call]? = some {}
  worker : ∃ x, w.workers[e.worker]? = some x ∧ x.items = [] ∧ x.ended = false
  objects : w.objects = e.before

/-- Nobody is at the entrance of the worker, so the caller passes it. -/
theorem leads_entrance {x : Worker Item} (hx : w.workers[e.worker]? = some x)
    (hopen : x.isOpen = true) (hlive : x.ended = false) (hitems : x.items = [])
    (hfree : x.entrance = none) (hcall : w.calls[e.call]? = some {}) (ho : w.objects = e.before) :
    ((enqueueOnWorker e.worker e.item).bind e.answered).Leads e.caller World.Told
      (World.KeepsDoor e.worker) e.Sending w := by
  refine .on fun m w₁ hb hm => ?_
  obtain ⟨events₁, rfl⟩ := hb
  refine ⟨x, { x with entrance := some e.caller }, hx, World.keepsDoor_put hx rfl rfl,
    .inl ⟨.checking, ?_, .on fun m w₂ hb hm => ?_⟩⟩
  · show Worker.enqueueStep e.item m x .locking = _
    rw [Worker.enqueueStep, hfree, hm]
    rfl
  obtain ⟨events₂, rfl⟩ := hb
  have hlt := (List.getElem?_eq_some_iff.mp hx).1
  refine ⟨{ x with entrance := some e.caller },
    { x with entrance := some e.caller, pending := x.pending + 1 }, List.getElem?_set_self hlt,
    World.keepsDoor_put (List.getElem?_set_self hlt) rfl rfl, .inl ⟨.sending, if_pos hopen, ?_⟩⟩
  refine .there fun w₃ hb => ?_
  obtain ⟨events₃, rfl⟩ := hb
  have hlt' : e.worker < (w.workers.set e.worker { x with entrance := some e.caller }).length := by
    rwa [List.length_set]
  exact ⟨rfl, hcall, ⟨_, List.getElem?_set_self hlt', hitems, hlive⟩, ho⟩

theorem isCurrent_worker {q : Queue} {v : Nat} (h : q.kind = .worker v) :
    isCurrent q = isThreadOf v := by
  rw [isCurrent, h]

theorem enqueue_worker {q : Queue} {v : Nat} (h : q.kind = .worker v) (work : Work)
    (body : Action Unit) : enqueue q work none body =
      (keep work.handles).bind fun n => enqueueOnWorker v ⟨n, work⟩ := by
  rw [enqueue, h]
  rfl

/-- As long as the others only report events, the caller comes to the sending of the item. -/
theorem leads_sending {x : Worker Item} (hne : e.caller ≠ e.server)
    (hkind : e.queue.kind = .worker e.worker) (hx : w.workers[e.worker]? = some x)
    (hthread : x.thread = e.server) (hopen : x.isOpen = true) (hlive : x.ended = false)
    (hitems : x.items = []) (hfree : x.entrance = none) (hcall : e.call = w.calls.size)
    (hnumber : e.number = w.nextKept) (ho : w.objects = e.before) :
    (invokeWith (some e.queue) .infinite e.callable e.args (e.callable.target.run e.args)).Leads
      e.caller World.Told (World.KeepsDoor e.worker) e.Sending w := by
  show Program.Leads e.caller World.Told (World.KeepsDoor e.worker) e.Sending
    ((isCurrent e.queue).bind fun here => _) w
  rw [isCurrent_worker hkind]
  refine .atomic fun m w₁ hb hm => ⟨rfl, ?_⟩
  obtain ⟨events₁, rfl⟩ := hb
  have hother : w.workers[e.worker]?.any (·.thread = m.self) = false := by
    rw [hx, Option.any_some, hthread, hm]
    exact decide_eq_false hne.symm
  simp only [hother, Bool.false_eq_true, if_false, callThrough_eq]
  -- The call gets its state, and the item the handles that it holds.
  refine .atomic fun _ w₂ hb _ => ⟨rfl, .atomic fun _ w₃ hb' _ => ⟨rfl, ?_⟩⟩
  obtain ⟨events₂, rfl⟩ := hb
  obtain ⟨events₃, rfl⟩ := hb'
  rw [enqueue_worker hkind, Program.bind_assoc]
  refine .atomic fun _ w₄ hb _ => ⟨rfl, ?_⟩
  obtain ⟨events₄, rfl⟩ := hb
  obtain ⟨caller, server, worker, queue, callable, args, call, number, before, after⟩ := e
  subst hcall hnumber
  exact leads_entrance hx hopen hlive hitems hfree Array.getElem?_push_size ho

/-- With its next step the caller puts the item among those of the worker, and the exchange
begins. -/
theorem Sending.step (h : e.Sending c w) (hq : AtRest e.worker q) (now : Instant) :
    ∃ w' c' s p, (∀ stray pick, c.step ⟨e.caller, now, stray, pick⟩ w = .going w' c') ∧
      s.now = now ∧ e.Meets s p c' w' ∧ e.Serves s (some q) w' := by
  obtain ⟨rfl, hcall, ⟨x, hx, hitems, hlive⟩, ho⟩ := h
  have hlt := (List.getElem?_eq_some_iff.mp hx).1
  have hsend (m : Moment) : (Worker.enqueue e.item).step m x Worker.EnqueuePc.sending =
      .going { x with items := [e.item] } Worker.EnqueuePc.releasing := by
    show Worker.enqueueStep e.item m x .sending = _
    rw [Worker.enqueueStep, hlive, hitems]
    rfl
  obtain ⟨s, hendless, hnow, hi, ha⟩ :=
    Call.Scene.exists_launched (V := Value) e.call now e.caller e.args
  have hwaiting : ((World.workerPart e.worker).put w { x with
      items := [e.item] }).waiting e.worker = some [e.item] := by
    show (w.workers.set e.worker _)[e.worker]?.map Worker.items = _
    rw [List.getElem?_set_self hlt]
    rfl
  exact ⟨_, _, s, _, fun _ _ => Program.going_on hx (hsend _), hnow,
    ⟨hendless, rfl, hcall, .releasing⟩, .queued hq hwaiting hi ha ho⟩

/-! ### The whole call -/

/-- Where the two threads stand at some time: the caller has not sent the item yet, and the worker
has nothing to do; or the exchange has begun. -/
inductive Joint (e : Exchange) (now : Instant) (c : Action (Except InvokeError Value)) :
    Option (Action Bool) → World → Prop where
  | early {q : Action Bool} {x : Worker Item} {w : World} : AtRest e.worker q →
      c.Leads e.caller World.Told (World.KeepsDoor e.worker) e.Sending w →
      w.workers[e.worker]? = some x → x.items = [] → x.isOpen = true → Joint e now c (some q) w
  | late {o : Option (Action Bool)} {w : World} (s : Call.Scene (List Value) Value)
      (p : Call.Party (List Value) Value) : s.now = now → e.Meets s p c w → e.Serves s o w →
      Joint e now c o w

namespace Joint

theorem tick (h : e.Joint now c o w) (later : Instant) : e.Joint (max now later) c o w := by
  cases h with
  | early hq hleads hx hitems hopen => exact .early hq hleads hx hitems hopen
  | late s p hnow hmeets hserves =>
    subst hnow
    exact .late _ p rfl (hmeets.tick later) (hserves.beside (.refl _ w) rfl rfl)

theorem caller (h : e.Joint now c o w)
    (hs : c.step ⟨e.caller, now, stray, pick⟩ w = .going w' c') : e.Joint now c' o w' := by
  cases h with
  | early hq hleads hx hitems hopen =>
    cases hleads with
    | there hp =>
      obtain ⟨w₁, c₁, s, p, hsend, hnow, hmeets, hserves⟩ := (hp w ⟨_, rfl⟩).step hq now
      obtain ⟨rfl, rfl⟩ := Program.Outcome.going.inj ((hsend stray pick).symm.trans hs)
      exact .late s p hnow hmeets hserves
    | step _ hguar hnext =>
      obtain ⟨x', hx', hitems', hopen'⟩ := (hguar _ w w' c' ⟨_, rfl⟩ rfl hs).idle hx
      exact .early hq (hnext _ w w' c' ⟨_, rfl⟩ rfl hs) hx' (hitems'.trans hitems)
        (hopen'.trans hopen)
  | late s p hnow hmeets hserves =>
    subst hnow
    obtain ⟨s', p', hmeets', hnow, hitems, hattempts, hb⟩ := hmeets.going hs
    exact .late s' p' hnow hmeets' (hserves.beside hb hitems hattempts)

theorem server (hcallable : Answers e.callable e.args e.before e.after)
    (h : e.Joint now c (some q) w)
    (hs : q.step ⟨e.server, now, stray, pick⟩ w = .going w' q') : e.Joint now c (some q') w' := by
  cases h with
  | early hq hleads hx hitems hopen =>
    rcases hq.going hs with ⟨htold, hq⟩ | ⟨y, result, y', name, hy, hreceive, -⟩
    · have hleads := hleads.stable (fun _ _ _ => World.Told.trans) htold
      obtain ⟨events, rfl⟩ := htold
      exact .early hq hleads hx hitems hopen
    · -- Nothing waits at an open worker, so its thread waits too.
      obtain rfl := Option.some.inj (hx.symm.trans hy)
      simp only [Worker.receive, hitems, hopen, if_true] at hreceive
      cases hreceive
  | late s p hnow hmeets hserves =>
    subst hnow
    obtain ⟨s', p', hmeets', hnow, hserves'⟩ := hserves.going hcallable hmeets hs
    exact .late s' p' hnow hmeets' hserves'

theorem halted {m : Moment} {r : Except Payload Bool} (h : e.Joint now c (some q) w)
    (hs : q.step m w = .halted r) :
    (r = .ok true ∧ e.Joint now c (some (drainTurn e.worker)) w) ∨
      r ≠ .ok true ∧ e.Joint now c none w := by
  cases h with
  | early hq hleads hx hitems hopen =>
    exact .inl ⟨hq.halted hs, .early (.coming .turning) hleads hx hitems hopen⟩
  | late s p hnow hmeets hserves =>
    rcases hserves.halted hs with ⟨hr, hserves'⟩ | ⟨hr, hserves'⟩
    · exact .inl ⟨hr, .late s p hnow hmeets hserves'⟩
    · exact .inr ⟨hr, .late s p hnow hmeets hserves'⟩

theorem ne_forking {m : Moment} {w' : World} (h : e.Joint now c (some q) w)
    (opening again : Action Bool) (next : ThreadId → Action Bool) :
    q.step m w' ≠ .forking opening again next := by
  cases h with
  | early hq => exact hq.ne_forking opening again next
  | late s p hnow hmeets hserves => exact hserves.ne_forking opening again next

theorem ended {r : Except Payload (Except InvokeError Value)} (h : e.Joint now c o w)
    (hr : c.Ended r) : ∃ r₀, r = .ok (throughQueue r₀) ∧ e.after r₀ w.objects := by
  cases h with
  | early hq hleads hx hitems hopen =>
    obtain ⟨rfl, -⟩ := hleads.of_ended ⟨_, rfl⟩ hr
    cases hr
  | late s p hnow hmeets hserves => exact hmeets.ended hserves hr

theorem completes (hne : e.caller ≠ e.server)
    (hcallable : Answers e.callable e.args e.before e.after) (h : e.Joint now c o w) :
    Machine.Finishes e.caller e.server k (drainTurn e.worker) now c o w := by
  cases h with
  | late s p hnow hmeets hserves => exact hnow ▸ hmeets.completes hne hcallable hserves
  | @early q x w hq hleads hx hitems hopen =>
    clear hx hitems hopen
    induction hleads generalizing now with
    | @there c w hp =>
      obtain ⟨w', c', s, p, hsend, rfl, hmeets, hserves⟩ := (hp w ⟨_, rfl⟩).step hq now
      exact .own hne (hsend false 0) (hmeets.completes hne hcallable hserves)
    | @step c w hcan _ _ ih =>
      obtain ⟨later, hlater⟩ := hcan w ⟨_, rfl⟩
      obtain ⟨w', c', hs⟩ := hlater ⟨e.caller, max now later, false, 0⟩ rfl (Nat.le_max_right ..)
      exact .tick (Nat.le_max_left now later) (.own hne hs (ih _ w w' c' ⟨_, rfl⟩ rfl hs))

end Joint

theorem Joint.step {machine machine' : Machine World}
    (hcallable : Answers e.callable e.args e.before e.after)
    (h : e.Joint machine.now c o machine.shared)
    (hserver : machine.threads[e.server]? = some ⟨o, drainTurn e.worker⟩)
    (hs : machine.step e.server stray pick = some machine') :
    ∃ shared o', e.Joint machine.now c o' shared ∧ machine' = { machine with
      shared, threads := machine.threads.setIfInBounds e.server ⟨o', drainTurn e.worker⟩ } := by
  have hforks (q : Action Bool) (m : Moment) (w : World) (opening again : Action Bool)
      (next : ThreadId → Action Bool) (hq : o = some q) :
      q.step m w ≠ .forking opening again next := by
    subst hq
    exact h.ne_forking opening again next
  obtain ⟨q, shared, o', rfl, rfl, ⟨q', hq, rfl⟩ | ⟨rfl, r, hq, hnext⟩⟩ :=
    Machine.step_cases hserver hforks hs
  · exact ⟨shared, some q', h.server hcallable hq, rfl⟩
  · refine ⟨machine.shared, o', ?_, rfl⟩
    rcases h.halted hq with ⟨hr, hj⟩ | ⟨hr, hj⟩ <;>
      rcases hnext with ⟨hr', rfl⟩ | ⟨hr', rfl⟩
    · exact hj
    · exact absurd hr hr'
    · exact absurd hr' hr
    · exact hj

/-- On a machine on which only the two threads are left, the caller comes to the end of the call. -/
theorem Joint.comes {machine : Machine World} (hne : e.caller ≠ e.server)
    (hcallable : Answers e.callable e.args e.before e.after)
    (h : e.Joint machine.now c o machine.shared)
    (hserver : machine.threads[e.server]? = some ⟨o, drainTurn e.worker⟩)
    (hquiet : machine.IsQuietBut [e.caller, e.server])
    (hr : machine.Runs e.caller (c.attempt.bind k)) :
    machine.Comes e.caller c k fun r w =>
      ∃ r₀, r = .ok (throughQueue r₀) ∧ e.after r₀ w.objects := by
  refine Machine.comes_of_invariant (I := fun v => v.machine.IsQuietBut [e.caller, e.server] ∧
    ∃ o, v.machine.threads[e.server]? = some ⟨o, drainTurn e.worker⟩ ∧
      e.Joint v.machine.now v.rest o v.machine.shared) hr ⟨hquiet, o, hserver, h⟩ ?_ ?_ ?_
  · rintro ⟨machine, c⟩ m v' hr ⟨hquiet, o, hserver, hj⟩ hm
    rcases Machine.Watch.move_cases hr hm with ⟨later, -, rfl⟩ |
      ⟨stray, pick, shared, rest, again, -, -, hs, rfl⟩ | ⟨u, stray, pick, machine', -, hu, hs, rfl⟩
    · exact ⟨hquiet, o, hserver, hj.tick later⟩
    · exact ⟨hquiet.set (.head _) shared _, o, (Machine.threads_set_ne hne).trans hserver,
        hj.caller hs⟩
    · by_cases hu' : u = e.server
      · subst hu'
        obtain ⟨shared, o', hj', rfl⟩ := hj.step hcallable hserver hs
        exact ⟨hquiet.set (.tail _ (.head _)) shared _, o', Machine.threads_set hserver, hj'⟩
      · have hended := hquiet u (by simp [hu, hu'])
        rw [Machine.step_of_hasEnded hended] at hs
        cases hs
  · exact fun v r ⟨_, o, _, hj⟩ hr => hj.ended hr
  · rintro ⟨machine, c⟩ hr ⟨_, o, hserver, hj⟩
    exact hj.completes hne hcallable machine rfl rfl hr hserver

end Exchange

/-- A call through an idle worker comes to its end, if the callable does. -/
theorem Answers.comes_worker {machine : Machine World} {t u : ThreadId} {v : Nat} {q : Queue}
    {callable : Callable} {args : List Value} {Q : Except Payload Value → World → Prop}
    {k : Except Payload (Except InvokeError Value) → Action Bool}
    (hcallable : Answers callable args machine.shared.objects Q) (hq : q.kind = .worker v)
    (hidle : IsIdle machine v u) (hne : t ≠ u) (hquiet : machine.IsQuietBut [t, u])
    (hr : machine.Runs t
      ((invokeWith (some q) .infinite callable args (callable.target.run args)).attempt.bind k)) :
    machine.Comes t (invokeWith (some q) .infinite callable args (callable.target.run args)) k
      fun r w => ∃ r₀, r = .ok (throughQueue r₀) ∧ Q r₀ w.objects := by
  obtain ⟨⟨x, hx, hthread, hopen, hlive, hitems, hfree⟩, ⟨p, hu, hp⟩⟩ := hidle
  let e : Exchange :=
    { caller := t, server := u, worker := v, queue := q, callable, args
      call := machine.shared.calls.size, number := machine.shared.nextKept
      before := machine.shared.objects, after := Q }
  have hleads := e.leads_sending hne hq hx hthread hopen hlive hitems hfree rfl rfl rfl
  exact Exchange.Joint.comes (e := e) hne hcallable (.early hp hleads hx hitems hopen) hu hquiet hr

end CrossCall.Script
