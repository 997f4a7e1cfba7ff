import CrossCall.Proofs.Call.Return
import CrossCall.Proofs.Callers.Order

/-! No caller is left behind by a worker. When the worker's thread has left its loop, every call that
was accepted has its outcome, and its caller comes back by itself. Whoever comes to a closed worker
is told so and waits for nothing but its turn at the entrance. -/

namespace CrossCall.Worker

theorem Scene.stepStand_refuses {ι : Type} {w : Worker ι} (d : Deeds ι) (m : Moment) (item : ι)
    (ho : w.isOpen = false) :
    stepStand m w d (.enqueuing item .checking) =
      some ({ w with entrance := none }, .idle, { d with refused := d.refused ++ [item] }) := by
  simp only [stepStand, enqueueStep, ho, Bool.false_eq_true, if_false]

/-- Who holds the entrance of a closed worker lets go of it with the next step. -/
theorem Scene.releases_of_closed {ι : Type} {w : Worker ι} {d : Deeds ι} {x : Stand ι} (m : Moment)
    (ho : w.isOpen = false) (hx : x.holds)
    (hout : ∀ item pc, x = .enqueuing item pc → pc = .locking ∨ pc = .checking) :
    ∃ w' x' d', stepStand m w d x = some (w', x', d') ∧ w'.entrance = none := by
  cases x with
  | enqueuing item pc =>
    rcases hout item pc rfl with rfl | rfl
    · cases hx
    · exact ⟨_, _, _, stepStand_refuses d m item ho, rfl⟩
  | closing pc =>
    cases pc with
    | locking => cases hx
    | holding => exact ⟨_, _, _, rfl, rfl⟩
  | looking pc =>
    cases pc with
    | locking => cases hx
    | holding => exact ⟨_, _, _, rfl, rfl⟩
  | idle | joining pc | reading pc => cases hx

theorem Scene.move_step {ι : Type} {s : Scene ι} {u : ThreadId} {x x' : Stand ι} {w : Worker ι}
    {d : Deeds ι} (hx : s.threads[u]? = some x)
    (h : stepStand ⟨u, 0, false, 0⟩ s.worker s.deeds x = some (w, x', d)) :
    s.move (.step u) =
      some { s with worker := w, threads := s.threads.set u x', deeds := d } := by
  simp only [move, hx, h, bind, Option.bind]

namespace Callers

variable {A V : Type} {s s₀ t : Callers A V} {i : Nat} {p : Call.Party A V}

/-- Caller `i` comes to its return with such an outcome, by such moves alone. -/
def ComesBack (s : Callers A V) (i : Nat) (may : Move A V → Prop)
    (told : Except InvokeError V → Prop) : Prop :=
  ∃ ns t p outcome, afterMoves move s ns = some t ∧ (∀ n ∈ ns, may n) ∧
    t.traffic.parties[i]? = some p ∧ p.caller = .returned outcome ∧ told outcome

theorem ComesBack.after {may : Move A V → Prop} {told : Except InvokeError V → Prop}
    (h : t.ComesBack i may told) {n : Move A V} (hn : may n) (ht : s.move n = some t) :
    s.ComesBack i may told := by
  obtain ⟨ns, u, p, outcome, hu, hns, hp, hc, htold⟩ := h
  refine ⟨n :: ns, u, p, outcome, ?_, ?_, hp, hc, htold⟩
  · rw [afterMoves, ht]
    exact hu
  · rintro n' (_ | ⟨_, hn'⟩)
    · exact hn
    · exact hns n' hn'

/-- The step in which a caller has its answer. -/
theorem move_step_answered {u : ThreadId} {e : Call.Envelope A} {pc : EnqueuePc}
    {office : Scene (Job A)} {traffic : Call.Scene A V}
    (hu : s.office.threads[u]? = some (.enqueuing (.call e) pc))
    (ho : s.office.move (.step u) = some office) (hidle : office.threads[u]? = some .idle)
    (ht : s.answer e.call (decide (pc = .releasing)) = some traffic) :
    s.move (.step u) = some ⟨office, traffic⟩ := by
  have hhanding : s.handing u = some (e.call, decide (pc = .releasing)) :=
    handing_eq_some.mpr ⟨e, pc, hu, rfl, rfl⟩
  simp only [move, ho, hhanding, hidle, ht, bind, Option.bind]

/-! ### After the worker's thread has left -/

theorem afterMoves_stepCaller {n : Nat} {u : Call.Scene A V}
    (h : afterMoves Call.Scene.move s.traffic (List.replicate n (.stepCaller i false)) = some u) :
    afterMoves move s (List.replicate n (.stepCaller i false)) = some { s with traffic := u } := by
  induction n generalizing s with
  | zero => rw [← Option.some.inj h]; rfl
  | succ n ih =>
    obtain ⟨v, hv, h⟩ := Option.bind_eq_some_iff.mp h
    have hmove : s.move (.stepCaller i false) = some { s with traffic := v } := by
      simp only [move, hv, bind, Option.bind]
    rw [List.replicate_succ, afterMoves, hmove]
    exact ih (s := { s with traffic := v }) h

theorem comesBack_of_traffic {may : Move A V → Prop} (hmay : may (.stepCaller i false))
    (h : s.traffic.ComesBack i) : s.ComesBack i may fun _ => True := by
  obtain ⟨n, u, p, outcome, hu, hp, hc⟩ := h
  refine ⟨_, _, p, outcome, afterMoves_stepCaller hu, fun m hm => ?_, hp, hc, trivial⟩
  exact List.eq_of_mem_replicate hm ▸ hmay

theorem Reachable.stands_of_left (h : s.Reachable) (hleft : s.office.drain.hasLeft)
    (ha : .call ⟨i, p.args⟩ ∈ s.office.deeds.accepted) :
    (∀ stand ∈ s.traffic.stands i, stand.isOver) ∧ s.traffic.stands i ≠ [] := by
  refine ⟨fun stand hm => ?_, fun hnil => ?_⟩
  · obtain ⟨a, ha', rfl⟩ := List.mem_map.mp hm
    exact h.over_of_left hleft a (List.mem_filter.mp ha').1
  · obtain ⟨k, a, r, hk, he, -⟩ :=
      h.attempt_of_left hleft (mem_acceptedCalls.mpr ha)
    have hstands := h.stands_of_attempt hk
    rw [he, hnil] at hstands
    cases hstands

theorem Reachable.attended (h : s.Reachable) (hleft : s.office.drain.hasLeft)
    (hp : s.traffic.parties[i]? = some p) (ha : .call ⟨i, p.args⟩ ∈ s.office.deeds.accepted) :
    s.traffic.Attended i p := by
  obtain ⟨hover, hsome⟩ := h.stands_of_left hleft ha
  exact h.traffic.sound.attended h.traffic.awake hp hover hsome

/-- What caller `i` does by itself. -/
def isOwn (i : Nat) (p : Call.Party A V) (n : Move A V) : Prop :=
  n = .step p.thread ∨ n = .stepCaller i false

/-- A caller whose call the worker has come to the end of comes back by itself. -/
theorem Reachable.comesBack_of_over (h : s.Reachable) (hp : s.traffic.parties[i]? = some p)
    (ha : .call ⟨i, p.args⟩ ∈ s.office.deeds.accepted)
    (hover : ∀ stand ∈ s.traffic.stands i, stand.isOver) (hsome : s.traffic.stands i ≠ []) :
    s.ComesBack i (isOwn i p) fun _ => True := by
  have hback {s : Callers A V} (h : s.Reachable) {p : Call.Party A V}
      (hp : s.traffic.parties[i]? = some p) (hover : ∀ stand ∈ s.traffic.stands i, stand.isOver)
      (hsome : s.traffic.stands i ≠ []) (hc : p.caller ≠ .handing) : s.traffic.ComesBack i :=
    (h.traffic.sound.attended h.traffic.awake hp hover hsome).comesBack hc
  by_cases hc : p.caller = .handing
  · cases h.desk.places i p hp with
    | letIn hl => rw [hc] at hl; cases hl
    | refused hr => rw [hc] at hr; cases hr
    | handing pc _ hu hiff =>
      obtain rfl := hiff.mpr ha
      have ho := Scene.move_step hu
        (show Scene.stepStand ⟨p.thread, 0, false, 0⟩ s.office.worker s.office.deeds _ = some _ from rfl)
      have hidle := getElem?_set_of_some hu .idle
      have haccept : s.traffic.move (.accept i) =
          some (s.traffic.putCaller i (.collecting none (.waiting .arriving))) := by
        simp only [Call.Scene.move, hp, Option.map_some, hc]
      have hmove := move_step_answered hu ho hidle haccept
      have hafter := Call.Scene.parties_modify_self
        (fun p => { p with caller := .collecting none (.waiting .arriving) }) hp
      refine ComesBack.after (comesBack_of_traffic (.inr rfl) ?_) (.inl rfl) hmove
      exact hback (.move _ h hmove) hafter hover hsome fun hc => by cases hc
  · exact comesBack_of_traffic (.inr rfl) (hback h hp hover hsome hc)

theorem Reachable.comesBack (h : s.Reachable) (hleft : s.office.drain.hasLeft)
    (hp : s.traffic.parties[i]? = some p) (ha : .call ⟨i, p.args⟩ ∈ s.office.deeds.accepted) :
    s.ComesBack i (isOwn i p) fun _ => True := by
  obtain ⟨hover, hsome⟩ := h.stands_of_left hleft ha
  exact h.comesBack_of_over hp ha hover hsome

/-! ### At a closed worker -/

/-- The item of a call that is not accepted is in the queue and has not been tried. -/
theorem Reachable.untaken (h : s.Reachable) (hp : s.traffic.parties[i]? = some p)
    (hc : p.caller = .handing) (ha : .call ⟨i, p.args⟩ ∉ s.office.deeds.accepted) :
    s.traffic.items.countP (·.call = i) = 1 ∧ ∀ a ∈ s.traffic.attempts, a.envelope.call ≠ i := by
  have hattempts : ∀ a ∈ s.traffic.attempts, a.envelope.call ≠ i := by
    rintro a hm rfl
    have hfaithful := h.traffic.sound.faithful a.envelope
      (List.mem_append_right _ (List.mem_map_of_mem hm))
    rw [hp, Option.map_some, Option.some.injEq] at hfaithful
    exact ha (hfaithful ▸ h.accepted_of_attempt hm)
  refine ⟨?_, hattempts⟩
  rcases h.books.kept i p hp with hr | hone
  · rw [hc] at hr
    cases hr
  · have hzero : (s.traffic.attempts.map Call.Attempt.envelope).countP (·.call = i) = 0 := by
      rw [List.countP_eq_zero]
      intro e he
      obtain ⟨a, hm, rfl⟩ := List.mem_map.mp he
      simpa using hattempts a hm
    rwa [Call.Scene.envelopes, List.countP_append, hzero, Nat.add_zero] at hone

/-- A caller who finds the worker closed is told so with its next step. -/
theorem Reachable.refuses (h : s.Reachable) (ho : s.office.worker.isOpen = false) {u : ThreadId}
    {e : Call.Envelope A} (hu : s.office.threads[u]? = some (.enqueuing (.call e) .checking)) :
    ∃ t p, s.move (.step u) = some t ∧ t.office.worker.entrance = none ∧
      t.traffic.parties[e.call]? = some p ∧
      p.caller = .returned (.error (.dispatch .closed)) := by
  obtain ⟨p, hp, -, he, hc, hiff⟩ := h.desk.place_of_handing hu
  obtain ⟨hone, hnone⟩ := h.untaken hp hc fun ha => by cases hiff.mpr (he ▸ ha)
  have hoffice := Scene.move_step hu
    (Scene.stepStand_refuses s.office.deeds ⟨u, 0, false, 0⟩ (.call e) ho)
  have hidle := getElem?_set_of_some hu .idle
  -- The item is there to be dropped, and with it the last of the call.
  have hitem : s.itemOf e.call < s.traffic.items.length := by
    rw [itemOf, List.findIdx_lt_length]
    exact List.countP_pos_iff.mp (hone ▸ Nat.one_pos)
  have hdrop : s.traffic.move (.drop (s.itemOf e.call)) =
      some { s.traffic with items := s.traffic.items.eraseIdx (s.itemOf e.call) } := by
    rw [Call.Scene.move, if_pos hitem]
  have hdone : Call.Scene.isDoneWith
      { s.traffic with items := s.traffic.items.eraseIdx (s.itemOf e.call) } e.call = true := by
    have hcount := Call.Scene.queued_eraseIdx (List.getElem?_eq_getElem hitem) e.call
    rw [if_pos (call_of_itemOf (List.getElem?_eq_getElem hitem)), hone] at hcount
    have hzero := List.countP_eq_zero.mp (Nat.succ.inj hcount)
    rw [Call.Scene.isDoneWith, Bool.and_eq_true, List.all_eq_true, List.all_eq_true]
    exact ⟨fun e' he' => by simpa using hzero e' he', fun a ha => by simp [hnone a ha]⟩
  have hanswer : s.answer e.call (decide (EnqueuePc.checking = .releasing)) =
      some (Call.Scene.putCaller
        { s.traffic with items := s.traffic.items.eraseIdx (s.itemOf e.call) } e.call
        (.returned (.error (.dispatch .closed)))) := by
    have hcaller : (s.traffic.parties[e.call]?).map Call.Party.caller = some .handing := by
      rw [hp, Option.map_some, hc]
    simp only [answer, reduceCtorEq, decide_false, Bool.false_eq_true, if_false, hdrop, bind,
      Option.bind]
    simp only [Call.Scene.move, hcaller, hdone, if_true]
  exact ⟨_, _, move_step_answered hu hoffice hidle hanswer, rfl,
    Call.Scene.parties_modify_self _ hp, rfl⟩

theorem office_of_step {u : ThreadId} (h : s.move (.step u) = some t) :
    s.office.move (.step u) = some t.office := by
  obtain ⟨office, ho, h⟩ := Option.bind_eq_some_iff.mp h
  split at h
  · obtain ⟨traffic, -, h⟩ := Option.bind_eq_some_iff.mp h
    exact Option.some.inj h ▸ ho
  · exact Option.some.inj h ▸ ho

/-- A step in which nobody has an answer for a call. -/
theorem move_step_unanswered {u : ThreadId} {office : Scene (Job A)}
    (ho : s.office.move (.step u) = some office)
    (hnot : s.handing u = none ∨ office.threads[u]? ≠ some .idle) :
    s.move (.step u) = some { s with office } := by
  simp only [move, ho, bind, Option.bind]
  split
  · next hhanding hidle =>
    rcases hnot with hnone | hne
    · rw [hnone] at hhanding
      cases hhanding
    · exact absurd hidle hne
  · rfl

/-- Where the entrance of a closed worker is taken, some thread, or the item that runs, frees it by
its next step. -/
theorem Reachable.frees (h : s.Reachable) (ho : s.office.worker.isOpen = false)
    (htaken : s.office.worker.entrance ≠ none) :
    ∃ n t, (n = .stepInside ∨ ∃ v x, n = .step v ∧ s.office.threads[v]? = some x ∧ x.holds) ∧
      s.move n = some t ∧ t.office.worker.entrance = none := by
  have hlocked := h.office.sound.locked
  rw [Option.isSome_iff_ne_none.mpr htaken, Bool.toNat_true] at hlocked
  obtain ⟨x, hm, hx⟩ := List.countP_pos_iff.mp (Nat.lt_of_lt_of_eq Nat.one_pos hlocked.symm)
  have hout (item : Job A) (pc : EnqueuePc) (heq : x = .enqueuing item pc) :
      pc = .locking ∨ pc = .checking :=
    (h.office.sound.closed ho).outside item pc (heq ▸ hm)
  rcases List.mem_append.mp hm with hm | hm
  · obtain ⟨v, hv⟩ := List.mem_iff_getElem?.mp hm
    obtain ⟨w, x', d, hstep, hfree⟩ :=
      Scene.releases_of_closed (d := s.office.deeds) ⟨v, 0, false, 0⟩ ho hx hout
    cases hhanding : s.handing v with
    | none =>
      exact ⟨.step v, _, .inr ⟨v, x, rfl, hv, hx⟩,
        move_step_unanswered (Scene.move_step hv hstep) (.inl hhanding), hfree⟩
    | some answer =>
      obtain ⟨e, pc, hu, -⟩ := handing_eq_some.mp hhanding
      obtain rfl := Option.some.inj (hv.symm.trans hu)
      rcases hout _ pc rfl with rfl | rfl
      · cases hx
      · obtain ⟨t, -, ht, hfree, -⟩ := h.refuses ho hu
        exact ⟨.step v, t, .inr ⟨v, _, rfl, hv, hx⟩, ht, hfree⟩
  · obtain ⟨w, x', d, hstep, hfree⟩ := Scene.releases_of_closed (d := s.office.deeds)
      ⟨s.office.worker.thread, 0, false, 0⟩ ho hx hout
    cases hd : s.office.drain with
    | running item inside =>
      obtain rfl : inside = x := by
        rw [hd] at hm
        exact Option.some.inj (Option.mem_toList.mp hm)
      refine ⟨.stepInside, ⟨{ s.office with
        worker := w, drain := .running item x', deeds := d }, s.traffic⟩, .inl rfl, ?_, hfree⟩
      simp only [move, Scene.move, hd, hstep, bind, Option.bind]
    | _ =>
      rw [hd] at hm
      cases hm

/-- What is done at the entrance of the worker. -/
def isAtEntrance (n : Move A V) : Prop := n = .stepInside ∨ ∃ u, n = .step u

/-- Whoever hands in a call at a closed worker is told so, once it is its turn at the entrance. -/
theorem Reachable.comesBack_closed (h : s.Reachable) (ho : s.office.worker.isOpen = false)
    {u : ThreadId} {e : Call.Envelope A} {pc : EnqueuePc}
    (hu : s.office.threads[u]? = some (.enqueuing (.call e) pc)) :
    s.ComesBack e.call isAtEntrance (· = .error (.dispatch .closed)) := by
  have hchecking {s : Callers A V} (h : s.Reachable) (ho : s.office.worker.isOpen = false)
      (hu : s.office.threads[u]? = some (.enqueuing (.call e) .checking)) :
      s.ComesBack e.call isAtEntrance (· = .error (.dispatch .closed)) := by
    obtain ⟨t, p, ht, -, hp, hc⟩ := h.refuses ho hu
    exact ComesBack.after ⟨[], t, p, _, rfl, List.forall_mem_nil _, hp, hc, rfl⟩ (.inr ⟨u, rfl⟩) ht
  have hlocking {s : Callers A V} (h : s.Reachable) (ho : s.office.worker.isOpen = false)
      (hfree : s.office.worker.entrance = none)
      (hu : s.office.threads[u]? = some (.enqueuing (.call e) .locking)) :
      s.ComesBack e.call isAtEntrance (· = .error (.dispatch .closed)) := by
    have hstep : Scene.stepStand ⟨u, 0, false, 0⟩ s.office.worker s.office.deeds
        (.enqueuing (.call e) .locking) = some ({ s.office.worker with entrance := some u },
          .enqueuing (.call e) .checking, s.office.deeds) := by
      simp only [Scene.stepStand, enqueueStep, hfree, Option.isSome_none, Bool.false_eq_true,
        if_false]
    have hself := getElem?_set_of_some hu (.enqueuing (.call e) .checking)
    have hmove := move_step_unanswered (Scene.move_step hu hstep) (.inr (by simp [hself]))
    exact (hchecking (.move _ h hmove) ho hself).after (.inr ⟨u, rfl⟩) hmove
  have hwhere := (h.office.sound.closed ho).outside (.call e) pc
    (List.mem_append_left _ (List.mem_of_getElem? hu))
  rcases hwhere with rfl | rfl
  · by_cases hfree : s.office.worker.entrance = none
    · exact hlocking h ho hfree hu
    · obtain ⟨n, t, hn, ht, hfree⟩ := h.frees ho hfree
      have htr : t.Reachable := .move n h ht
      obtain ⟨m, hm, hother⟩ : ∃ m, s.office.move m = some t.office ∧ m ≠ .step u := by
        rcases hn with rfl | ⟨v, x, rfl, hv, hx⟩
        · obtain ⟨office, hm, heq⟩ := Option.bind_eq_some_iff.mp ht
          exact ⟨.stepInside, Option.some.inj heq ▸ hm, fun hn => by cases hn⟩
        · refine ⟨.step v, office_of_step ht, fun heq => ?_⟩
          -- Who waits for the entrance does not hold it.
          rw [Worker.Move.step.inj heq, hu] at hv
          obtain rfl := Option.some.inj hv
          cases hx
      have hto := (h.office.closed ho (.move m (.refl _) hm)).shut
      have htu : t.office.threads[u]? = some (.enqueuing (.call e) .locking) := by
        rcases (Scene.effect_of_move hm).threads u with hsame | ⟨-, -, hidle, -⟩ | ⟨rfl, -⟩
        · exact hsame.trans hu
        · rw [hu] at hidle
          cases hidle
        · exact absurd rfl hother
      refine (hlocking htr hto hfree htu).after ?_ ht
      rcases hn with rfl | ⟨v, -, rfl, -⟩
      · exact .inl rfl
      · exact .inr ⟨v, rfl⟩
  · exact hchecking h ho hu

/-- Once the worker's thread has left its loop, whoever had a call accepted has returned, or has the
outcome of its one run stored and the permit there or taken, and comes back by itself. A call that
the worker did not let in before it was closed is not waited for: its caller has been told, or is
at the entrance and will be told. -/
theorem nobody_is_left_behind {ms : List (Move A V)} (h₀ : s₀.isStart)
    (hs : afterMoves move s₀ ms = some s) :
    (s.office.drain.hasLeft → ∀ i p, s.traffic.parties[i]? = some p →
      .call ⟨i, p.args⟩ ∈ s.office.deeds.accepted →
        ((∃ outcome, p.caller = .returned outcome) ∨ ∃ r, Call.Keeps p.call.phase r ∧
          s.traffic.RanOnce i p.args r ∧ (p.call.signal.permits = 1 ∨ p.caller.isServed)) ∧
        s.ComesBack i (isOwn i p) fun _ => True) ∧
      (s.office.drain.hasLeft → s.office.worker.isOpen = false) ∧
      (s.office.worker.isOpen = false → ∀ ns t, afterMoves move s ns = some t →
        ∀ i p, t.traffic.parties[i]? = some p →
          .call ⟨i, p.args⟩ ∉ s.office.deeds.accepted →
            p.caller = .returned (.error (.dispatch .closed)) ∨
              p.caller = .handing ∧
                (∃ pc, (pc = .locking ∨ pc = .checking) ∧
                  t.office.threads[p.thread]? = some (.enqueuing (.call ⟨i, p.args⟩) pc)) ∧
                t.ComesBack i isAtEntrance (· = .error (.dispatch .closed))) := by
  have hreach : s.Reachable := .trans (.start h₀) (.of_afterMoves hs)
  refine ⟨fun hleft i p hp ha => ⟨(hreach.attended hleft hp ha).outcome,
    hreach.comesBack hleft hp ha⟩, fun hleft => (hreach.office.sound.left hleft).1,
    fun ho ns t ht i p hp ha => ?_⟩
  have htreach : t.Reachable := .trans hreach (.of_afterMoves ht)
  have hclosed := hreach.office.closed ho (office_reachable (.of_afterMoves ht))
  rw [← hclosed.accepted] at ha
  cases htreach.desk.places i p hp with
  | handing pc hc hu =>
    exact .inr ⟨hc, ⟨pc, hclosed.outside _ _ (List.mem_append_left _ (List.mem_of_getElem? hu)), hu⟩,
      htreach.comesBack_closed hclosed.shut hu⟩
  | letIn _ ha' => exact absurd ha' ha
  | refused hr => exact .inl hr

/-- Two calls are in flight when the callable of the first closes the worker, and a third comes too
late. -/
def closedFromACallable : List (Move Nat Nat) :=
  List.flatten [[.call 0 7 .infinite], List.replicate 4 (.step 0),
    List.replicate 3 (.stepCaller 0 false), [.call 1 8 .infinite], List.replicate 4 (.step 1),
    [.drain, .stepAttempt 0, .stepAttempt 0, .exitInside, .stepInside, .stepInside,
      .call 2 9 .infinite, .step 2, .finishCallable (.ok 49)],
    List.replicate 7 (.stepAttempt 0),
    [.drain, .drain, .drain, .stepAttempt 0, .stepAttempt 0, .finishCallable (.ok 64)],
    List.replicate 7 (.stepAttempt 0), [.drain, .drain, .drain]]

theorem nobody_is_left_behind_closed_from_a_callable :
    ∃ (s : Callers Nat Nat) (p : Call.Party Nat Nat),
      afterMoves move
        ⟨{ worker := { name := "w", thread := 3 }, threads := [.idle, .idle, .idle] },
          { strict := true }⟩ closedFromACallable = some s ∧
      s.office.drain.hasLeft ∧ s.traffic.parties[0]? = some p ∧
      p.caller = .collecting (some 0) (.waiting (.parked none)) ∧
      s.ComesBack 0 (isOwn 0 p) (fun _ => True) ∧
      s.ComesBack 2 isAtEntrance (· = .error (.dispatch .closed)) := by
  have hrun := nobody_is_left_behind
    ⟨⟨⟨"w", 3, rfl, by decide⟩, by decide, rfl, rfl⟩, ⟨rfl, rfl, rfl⟩, rfl⟩
    (show afterMoves move
      ⟨{ worker := { name := "w", thread := 3 }, threads := [.idle, .idle, .idle] },
        { strict := true }⟩ closedFromACallable = some _ from rfl)
  obtain ⟨hback, hshut, hclosed⟩ := hrun
  have htold := hclosed (hshut rfl) [] _ rfl 2 _ rfl (by decide)
  refine ⟨_, _, rfl, rfl, rfl, rfl, (hback rfl 0 _ rfl (by decide)).2, ?_⟩
  rcases htold with hreturned | ⟨-, -, hcomes⟩
  · cases hreturned
  · exact hcomes

end Callers
end CrossCall.Worker
