import CrossCall.Call.Scene
import CrossCall.Proofs.Runs
import CrossCall.Proofs.Signal.Step

/-! The course of one call: its state, where its caller stands, where the attempts at it stand, and
how many of its items the queues keep. A move of the whole scene is a step of the course of one
call and leaves the courses of all others as they are. -/

namespace CrossCall

theorem Phase.isDispatched_iff {V : Type} {phase : Phase V} :
    phase.isDispatched = true ↔ phase = .dispatched := by
  cases phase <;> simp [Phase.isDispatched]

theorem Phase.isAbandoned_iff {V : Type} {phase : Phase V} :
    phase.isAbandoned = true ↔ phase = .abandoned := by
  cases phase <;> simp [Phase.isAbandoned]

end CrossCall

namespace CrossCall.Call

variable {A V : Type}

/-! ### Steps of the two sides -/

inductive TargetStep (m : Moment) (c : Call V) :
    TargetStand V → Call V → TargetStand V → Prop where
  | lockGate : c.holder = none →
      TargetStep m c (.entering .locking) { c with holder := some m.self } (.entering .holding)
  | pass : c.phase = .dispatched →
      TargetStep m c (.entering .holding) { c with phase := .running, holder := none } .running
  | skip : c.phase ≠ .dispatched →
      TargetStep m c (.entering .holding) { c with holder := none } (.over none)
  | lock (r : Except Payload V) : c.holder = none →
      TargetStep m c (.concluding r .locking) { c with holder := some m.self }
        (.concluding r .holding)
  | discard (r : Except Payload V) : c.phase = .abandoned →
      TargetStep m c (.concluding r .holding) { c with holder := none } (.over (some r))
  | keep (r : Except Payload V) : c.phase ≠ .abandoned →
      TargetStep m c (.concluding r .holding) c (.delivering r .storing)
  | store (r : Except Payload V) :
      TargetStep m c (.delivering r .storing)
        { c with phase := outcomePhase (r.mapError Payload.message) }
        (.delivering r (.raising .locking))
  | raise (r : Except Payload V) (pc pc' : Signal.RaisePc) (s : Signal) :
      Signal.Raises m c.signal pc (.going s pc') →
      TargetStep m c (.delivering r (.raising pc)) { c with signal := s }
        (.delivering r (.raising pc'))
  | raised (r : Except Payload V) (pc : Signal.RaisePc) (s : Signal) :
      Signal.Raises m c.signal pc (.finished s ()) →
      TargetStep m c (.delivering r (.raising pc)) { c with signal := s } (.delivering r .releasing)
  | release (r : Except Payload V) :
      TargetStep m c (.delivering r .releasing) { c with holder := none } (.over (some r))

inductive CallerStep (bound : WaitBound) (m : Moment) (c : Call V) :
    CallerStand V → Call V → CallerStand V → Prop where
  | wait (since : Option Instant) (pc pc' : Signal.WaitPc) (s : Signal) :
      Signal.Waits bound m c.signal pc (.going s pc') →
      CallerStep bound m c (.collecting since (.waiting pc)) { c with signal := s }
        (.collecting (some (since.getD m.now)) (.waiting pc'))
  | waited (since : Option Instant) (pc : Signal.WaitPc) (s : Signal) (signaled : Bool) :
      Signal.Waits bound m c.signal pc (.finished s signaled) →
      CallerStep bound m c (.collecting since (.waiting pc)) { c with signal := s }
        (.collecting (some (since.getD m.now)) (.locking signaled))
  | lock (since : Option Instant) (signaled : Bool) : c.holder = none →
      CallerStep bound m c (.collecting since (.locking signaled)) { c with holder := some m.self }
        (.collecting (some (since.getD m.now)) (.holding signaled))
  | settle (since : Option Instant) :
      CallerStep bound m c (.collecting since (.holding true))
        { c with phase := .settled, holder := none } (.returned (takeOutcome c.phase))
  | abandon (since : Option Instant) :
      CallerStep bound m c (.collecting since (.holding false))
        { c with phase := .abandoned, holder := none } (.returned (.error .timedOut))

/-! ### The course of one call -/

structure Course (V : Type) where
  call : Call V := {}
  caller : CallerStand V := .handing
  stands : List (TargetStand V) := []
  /-- How many of its items the queues keep. -/
  queued : Nat := 1

inductive Course.Step (bound : WaitBound) (c : Course V) : Course V → Prop where
  | take (keep : Bool) : 0 < c.queued →
      Step bound c { c with
        queued := if keep then c.queued else c.queued - 1
        stands := c.stands ++ [.entering .locking] }
  | drop : 0 < c.queued → Step bound c { c with queued := c.queued - 1 }
  | accept : c.caller = .handing →
      Step bound c { c with caller := .collecting none (.waiting .arriving) }
  | refuse (error : DispatchError) : c.caller = .handing → c.queued = 0 →
      (∀ stand ∈ c.stands, stand.isOver) →
      Step bound c { c with caller := .returned (.error (.dispatch error)) }
  | caller (m : Moment) (call : Call V) (caller : CallerStand V) :
      CallerStep bound m c.call c.caller call caller → Step bound c { c with call, caller }
  | target (m : Moment) (before after : List (TargetStand V)) (stand stand' : TargetStand V)
      (call : Call V) : c.stands = before ++ stand :: after →
      TargetStep m c.call stand call stand' →
      Step bound c { c with call, stands := before ++ stand' :: after }
  | finish (before after : List (TargetStand V)) (r : Except Payload V) :
      c.stands = before ++ .running :: after →
      Step bound c { c with stands := before ++ .concluding r .locking :: after }

namespace Scene

variable {s t : Scene A V} {m : Move A V} {i j : Nat} {p q : Party A V}

/-- Where the attempts at call `i` stand, in the order in which they began. -/
def stands (s : Scene A V) (i : Nat) : List (TargetStand V) :=
  (s.attempts.filter (·.envelope.call = i)).map Attempt.stand

theorem exists_attempt {Q : TargetStand V → Bool} (h : 0 < (s.stands i).countP Q) :
    ∃ (k : Nat) (a : Attempt A V), s.attempts[k]? = some a ∧ a.envelope.call = i ∧ Q a.stand := by
  obtain ⟨stand, hm, hs⟩ := List.countP_pos_iff.mp h
  obtain ⟨a, ha, rfl⟩ := List.mem_map.mp hm
  obtain ⟨ha, hi⟩ := List.mem_filter.mp ha
  obtain ⟨k, hk⟩ := List.mem_iff_getElem?.mp ha
  exact ⟨k, a, hk, of_decide_eq_true hi, hs⟩

theorem mem_stands {k : Nat} {a : Attempt A V} (ha : s.attempts[k]? = some a) (hi : a.envelope.call = i) :
    a.stand ∈ s.stands i :=
  List.mem_map_of_mem (List.mem_filter.mpr ⟨List.mem_of_getElem? ha, decide_eq_true hi⟩)

def course (s : Scene A V) (i : Nat) (p : Party A V) : Course V where
  call := p.call
  caller := p.caller
  stands := s.stands i
  queued := s.items.countP (·.call = i)

/-- What a caller's step does, told by what it does to the call and to where the caller stands. -/
theorem stepCaller_cases {m : Moment} (h : s.stepCaller i m p = some t) :
    ∃ call caller, CallerStep p.bound m p.call p.caller call caller ∧
      t = (s.putCall i call).putCaller i caller := by
  unfold stepCaller at h
  split at h
  · next since pc hp =>
    rw [hp]
    cases pc with
    | waiting pc =>
      simp only [collectStep] at h
      cases hw : Signal.waitStep p.bound m p.call.signal pc with
      | blocked => simp [hw] at h
      | going signal pc' =>
        simp only [hw, Option.some.injEq] at h
        exact ⟨_, _, .wait since pc pc' signal (Signal.waitStep_cases hw nofun), h.symm⟩
      | finished signal signaled =>
        simp only [hw, Option.some.injEq] at h
        exact ⟨_, _, .waited since pc signal signaled (Signal.waitStep_cases hw nofun), h.symm⟩
    | locking signaled =>
      cases hh : p.call.holder with
      | none =>
        simp only [collectStep, hh, Option.isSome_none, Bool.false_eq_true, if_false,
          Option.some.injEq] at h
        exact ⟨_, _, .lock since signaled hh, h.symm⟩
      | some u => simp [collectStep, hh] at h
    | holding signaled =>
      cases signaled with
      | true => exact ⟨_, _, .settle since, (Option.some.inj h).symm⟩
      | false => exact ⟨_, _, .abandon since, (Option.some.inj h).symm⟩
  · simp at h

theorem stepAttempt_cases {k : Nat} {m : Moment} {call : Call V} {stand : TargetStand V}
    (h : s.stepAttempt k m i call stand = some t) :
    ∃ call' stand', TargetStep m call stand call' stand' ∧
      t = (s.putCall i call').putAttempt k stand' := by
  cases stand with
  | entering pc =>
    cases pc with
    | locking =>
      cases hh : call.holder with
      | none =>
        simp only [stepAttempt, enterStep, hh, Option.isSome_none, Bool.false_eq_true, if_false,
          Option.some.injEq] at h
        exact ⟨_, _, .lockGate hh, h.symm⟩
      | some u => simp [stepAttempt, enterStep, hh] at h
    | holding =>
      by_cases hd : call.phase.isDispatched = true
      · simp only [stepAttempt, enterStep, if_pos hd, Option.some.injEq] at h
        exact ⟨_, _, .pass (Phase.isDispatched_iff.mp hd), h.symm⟩
      · simp only [stepAttempt, enterStep, if_neg hd, Option.some.injEq] at h
        exact ⟨_, _, .skip fun hp => hd (Phase.isDispatched_iff.mpr hp), h.symm⟩
  | running => simp [stepAttempt] at h
  | concluding r pc =>
    cases pc with
    | locking =>
      cases hh : call.holder with
      | none =>
        simp only [stepAttempt, concludeStep, hh, Option.isSome_none, Bool.false_eq_true,
          if_false, Option.some.injEq] at h
        exact ⟨_, _, .lock r hh, h.symm⟩
      | some u => simp [stepAttempt, concludeStep, hh] at h
    | holding =>
      by_cases ha : call.phase.isAbandoned = true
      · simp only [stepAttempt, concludeStep, if_pos ha, Option.some.injEq] at h
        exact ⟨_, _, .discard r (Phase.isAbandoned_iff.mp ha), h.symm⟩
      · simp only [stepAttempt, concludeStep, if_neg ha, Option.some.injEq] at h
        exact ⟨_, _, .keep r fun hp => ha (Phase.isAbandoned_iff.mpr hp), h.symm⟩
  | delivering r pc =>
    cases pc with
    | storing => exact ⟨_, _, .store r, (Option.some.inj h).symm⟩
    | raising pc =>
      simp only [stepAttempt, deliverStep] at h
      cases hr : Signal.raiseStep m call.signal pc with
      | blocked => simp [hr] at h
      | going signal pc' =>
        simp only [hr, Option.some.injEq] at h
        exact ⟨_, _, .raise r pc pc' signal (Signal.raiseStep_cases hr nofun), h.symm⟩
      | finished signal u =>
        simp only [hr, Option.some.injEq] at h
        exact ⟨_, _, .raised r pc signal (Signal.raiseStep_cases hr nofun), h.symm⟩
    | releasing => exact ⟨_, _, .release r, (Option.some.inj h).symm⟩
  | «over» r => simp [stepAttempt] at h

/-- What each kind of move does, and what it needs. -/
inductive Change (s : Scene A V) : Move A V → Scene A V → Prop where
  | launch (thread : ThreadId) (args : A) (bound : WaitBound) :
      Change s (.launch thread args bound) { s with
        parties := s.parties ++ [{ thread, args, bound }]
        items := s.items ++ [⟨s.parties.length, args⟩] }
  | accept (i : Nat) (p : Party A V) : s.parties[i]? = some p → p.caller = .handing →
      Change s (.accept i) (s.putCaller i (.collecting none (.waiting .arriving)))
  | refuse (i : Nat) (error : DispatchError) (p : Party A V) : s.parties[i]? = some p →
      p.caller = .handing → s.isDoneWith i →
      Change s (.refuse i error) (s.putCaller i (.returned (.error (.dispatch error))))
  | take (thread : ThreadId) (k : Nat) (keep : Bool) (e : Envelope A) : s.items[k]? = some e →
      Change s (.take thread k keep) { s with
        items := if keep then s.items else s.items.eraseIdx k
        attempts := s.attempts ++ [{ thread, envelope := e }] }
  | drop (k : Nat) (e : Envelope A) : s.items[k]? = some e →
      Change s (.drop k) { s with items := s.items.eraseIdx k }
  | stepCaller (i : Nat) (stray : Bool) (p : Party A V) (call : Call V) (caller : CallerStand V) :
      s.parties[i]? = some p →
      CallerStep p.bound ⟨p.thread, s.now, stray, 0⟩ p.call p.caller call caller →
      Change s (.stepCaller i stray) ((s.putCall i call).putCaller i caller)
  | stepAttempt (k pick : Nat) (a : Attempt A V) (p : Party A V) (call : Call V)
      (stand : TargetStand V) : s.attempts[k]? = some a → s.parties[a.envelope.call]? = some p →
      TargetStep ⟨a.thread, s.now, false, pick⟩ p.call a.stand call stand →
      Change s (.stepAttempt k pick) ((s.putCall a.envelope.call call).putAttempt k stand)
  | finish (k : Nat) (r : Except Payload V) (a : Attempt A V) : s.attempts[k]? = some a →
      a.stand = .running → Change s (.finish k r) (s.putAttempt k (.concluding r .locking))
  | tick (later : Instant) : Change s (.tick later) { s with now := max s.now later }

theorem change_of_move (h : s.move m = some t) : s.Change m t := by
  cases m with
  | launch thread args bound => exact Option.some.inj h ▸ .launch thread args bound
  | accept i =>
    simp only [move] at h
    split at h
    · next hi =>
      obtain ⟨p, hp, hc⟩ := Option.map_eq_some_iff.mp hi
      exact Option.some.inj h ▸ .accept i p hp hc
    · cases h
  | refuse i error =>
    simp only [move] at h
    split at h
    · next hi =>
      obtain ⟨p, hp, hc⟩ := Option.map_eq_some_iff.mp hi
      split at h
      · next hd => exact Option.some.inj h ▸ .refuse i error p hp hc hd
      · cases h
    · cases h
  | take thread k keep =>
    obtain ⟨e, he, h⟩ := Option.bind_eq_some_iff.mp h
    split at h
    · cases h
    · exact Option.some.inj h ▸ .take thread k keep e he
  | drop k =>
    simp only [move] at h
    split at h
    · next hk => exact Option.some.inj h ▸ .drop k _ (List.getElem?_eq_getElem hk)
    · cases h
  | stepCaller i stray =>
    obtain ⟨p, hp, h⟩ := Option.bind_eq_some_iff.mp h
    obtain ⟨call, caller, hstep, rfl⟩ := stepCaller_cases h
    exact .stepCaller i stray p call caller hp hstep
  | stepAttempt k pick =>
    obtain ⟨a, ha, h⟩ := Option.bind_eq_some_iff.mp h
    obtain ⟨p, hp, h⟩ := Option.bind_eq_some_iff.mp h
    obtain ⟨call, stand, hstep, rfl⟩ := stepAttempt_cases h
    exact .stepAttempt k pick a p call stand ha hp hstep
  | finish k r =>
    simp only [move] at h
    split at h
    · next hk =>
      obtain ⟨a, ha, hrun⟩ := Option.map_eq_some_iff.mp hk
      exact Option.some.inj h ▸ .finish k r a ha hrun
    · cases h
  | tick later => exact Option.some.inj h ▸ .tick later

/-- After a move call `i` has gone on by at most one step, its thread, arguments and bound as they
were. -/
def Follows (s : Scene A V) (i : Nat) (p : Party A V) (t : Scene A V) : Prop :=
  ∃ q, t.parties[i]? = some q ∧ q.thread = p.thread ∧ q.args = p.args ∧ q.bound = p.bound ∧
    (t.course i q = s.course i p ∨ (s.course i p).Step p.bound (t.course i q))

theorem Follows.same (hp : t.parties[i]? = some p) (hs : t.stands i = s.stands i)
    (hq : t.items.countP (·.call = i) = s.items.countP (·.call = i)) : s.Follows i p t :=
  ⟨p, hp, rfl, rfl, rfl, .inl (by simp only [course, hs, hq])⟩

theorem parties_modify_ne (f : Party A V → Party A V) (h : j ≠ i) :
    (s.parties.modify j f)[i]? = s.parties[i]? := by
  rw [List.getElem?_modify]
  simp [h]

theorem parties_modify_self (f : Party A V → Party A V) (h : s.parties[i]? = some p) :
    (s.parties.modify i f)[i]? = some (f p) := by
  rw [List.getElem?_modify, h]
  simp

theorem exists_stands {k : Nat} {a : Attempt A V} (h : s.attempts[k]? = some a)
    (stand : TargetStand V) :
    ∃ before after, s.stands a.envelope.call = before ++ a.stand :: after ∧
      (s.putAttempt k stand).stands a.envelope.call = before ++ stand :: after := by
  obtain ⟨before, after, hs, -, hm, -⟩ := exists_sides h
  refine ⟨(before.filter (·.envelope.call = a.envelope.call)).map Attempt.stand,
    (after.filter (·.envelope.call = a.envelope.call)).map Attempt.stand, ?_, ?_⟩
  · rw [stands, hs]
    simp
  · simp only [stands, putAttempt, hm]
    simp

theorem stands_putAttempt_ne {k : Nat} {a : Attempt A V} (h : s.attempts[k]? = some a)
    (hi : a.envelope.call ≠ i) (stand : TargetStand V) :
    (s.putAttempt k stand).stands i = s.stands i := by
  obtain ⟨before, after, hs, -, hm, -⟩ := exists_sides h
  simp only [stands, putAttempt, hm]
  simp [hs, hi]

theorem follows_launch {thread : ThreadId} {args : A} {bound : WaitBound}
    (hp : s.parties[i]? = some p) (h : s.move (.launch thread args bound) = some t) :
    s.Follows i p t := by
  have hi : i < s.parties.length := (List.getElem?_eq_some_iff.mp hp).1
  obtain rfl := Option.some.inj h
  refine .same ?_ rfl ?_
  · rw [List.getElem?_append_left hi, hp]
  · simp only [List.countP_append, List.countP_singleton]
    rw [if_neg (by simpa using Nat.ne_of_gt hi), Nat.add_zero]

theorem follows_accept (hp : s.parties[i]? = some p) (h : s.move (.accept j) = some t) :
    s.Follows i p t := by
  cases change_of_move h with
  | accept _ q hq hc =>
    by_cases hij : j = i
    · subst hij
      obtain rfl := Option.some.inj (hp.symm.trans hq)
      exact ⟨_, parties_modify_self _ hp, rfl, rfl, rfl, .inr (.accept hc)⟩
    · exact .same ((parties_modify_ne _ hij).trans hp) rfl rfl

theorem follows_refuse {error : DispatchError} (hp : s.parties[i]? = some p)
    (h : s.move (.refuse j error) = some t) : s.Follows i p t := by
  cases change_of_move h with
  | refuse _ _ q hq hc hd =>
    by_cases hij : j = i
    · subst hij
      obtain rfl := Option.some.inj (hp.symm.trans hq)
      simp only [isDoneWith, Bool.and_eq_true, List.all_eq_true, Bool.or_eq_true,
        decide_eq_true_eq] at hd
      refine ⟨_, parties_modify_self _ hp, rfl, rfl, rfl, .inr (.refuse error hc ?_ ?_)⟩
      · rw [course, List.countP_eq_zero]
        exact fun e he => by simpa using hd.1 e he
      · intro stand hs
        obtain ⟨a, ha, rfl⟩ := List.mem_map.mp hs
        rw [List.mem_filter, decide_eq_true_eq] at ha
        exact (hd.2 a ha.1).resolve_left fun hne => hne ha.2
    · exact .same ((parties_modify_ne _ hij).trans hp) rfl rfl

theorem queued_eraseIdx {items : List (Envelope A)} {k : Nat} {e : Envelope A}
    (h : items[k]? = some e) (i : Nat) :
    (items.eraseIdx k).countP (·.call = i) + (if e.call = i then 1 else 0) =
      items.countP (·.call = i) := by
  obtain ⟨before, after, hs, -, -, hr⟩ := exists_sides h
  rw [hr]
  subst hs
  simp only [List.countP_append, List.countP_cons, decide_eq_true_eq, Nat.add_assoc]

theorem follows_take {thread : ThreadId} {k : Nat} {keep : Bool} (hp : s.parties[i]? = some p)
    (h : s.move (.take thread k keep) = some t) : s.Follows i p t := by
  cases change_of_move h with
  | take _ _ _ e he =>
    have hq := queued_eraseIdx he i
    by_cases hei : e.call = i
    · rw [if_pos hei] at hq
      have hpos : 0 < s.items.countP (·.call = i) := by omega
      have hstep : (s.course i p).Step p.bound _ := .take keep hpos
      have hk : (if keep then s.items else s.items.eraseIdx k).countP (·.call = i) =
          if keep then (s.course i p).queued else (s.course i p).queued - 1 := by
        cases keep with
        | true => rfl
        | false => exact Nat.eq_sub_of_add_eq hq
      refine ⟨p, hp, rfl, rfl, rfl, .inr ?_⟩
      rw [← hk] at hstep
      simpa [course, stands, hei] using hstep
    · rw [if_neg hei, Nat.add_zero] at hq
      refine .same hp (by simp [stands, hei]) ?_
      cases keep with
      | true => rfl
      | false => exact hq

theorem follows_drop {k : Nat} (hp : s.parties[i]? = some p) (h : s.move (.drop k) = some t) :
    s.Follows i p t := by
  cases change_of_move h with
  | drop _ e he =>
    have hq := queued_eraseIdx he i
    by_cases hi : e.call = i
    · rw [if_pos hi] at hq
      have hpos : 0 < s.items.countP (·.call = i) := by omega
      have hstep : (s.course i p).Step p.bound _ := .drop hpos
      rw [show (s.course i p).queued - 1 = (s.items.eraseIdx k).countP (·.call = i) from
        (Nat.eq_sub_of_add_eq hq).symm] at hstep
      exact ⟨p, hp, rfl, rfl, rfl, .inr hstep⟩
    · rw [if_neg hi, Nat.add_zero] at hq
      exact .same hp rfl hq

theorem follows_stepCaller {stray : Bool} (hp : s.parties[i]? = some p)
    (h : s.move (.stepCaller j stray) = some t) : s.Follows i p t := by
  cases change_of_move h with
  | stepCaller _ _ q call caller hq hstep =>
    by_cases hij : j = i
    · subst hij
      obtain rfl := Option.some.inj (hp.symm.trans hq)
      refine ⟨{ p with call, caller }, ?_, rfl, rfl, rfl, .inr (.caller _ call caller hstep)⟩
      exact parties_modify_self (s := s.putCall j call) _ (parties_modify_self _ hp)
    · refine .same ?_ rfl rfl
      exact (parties_modify_ne (s := s.putCall j call) _ hij).trans
        ((parties_modify_ne _ hij).trans hp)

theorem follows_stepAttempt {k pick : Nat} (hp : s.parties[i]? = some p)
    (h : s.move (.stepAttempt k pick) = some t) : s.Follows i p t := by
  cases change_of_move h with
  | stepAttempt _ _ a q call stand ha hq hstep =>
    by_cases hij : a.envelope.call = i
    · subst hij
      obtain rfl := Option.some.inj (hp.symm.trans hq)
      obtain ⟨before, after, hs, ht⟩ := exists_stands ha stand
      refine ⟨{ p with call }, parties_modify_self _ hp, rfl, rfl, rfl, .inr ?_⟩
      have hc : (s.course a.envelope.call p).Step p.bound _ :=
        .target _ before after a.stand stand call hs hstep
      rw [← ht] at hc
      exact hc
    · exact .same ((parties_modify_ne _ hij).trans hp) (stands_putAttempt_ne ha hij stand) rfl

theorem follows_finish {k : Nat} {result : Except Payload V} (hp : s.parties[i]? = some p)
    (h : s.move (.finish k result) = some t) : s.Follows i p t := by
  cases change_of_move h with
  | finish _ _ a ha hrun =>
    by_cases hij : a.envelope.call = i
    · subst hij
      obtain ⟨before, after, hs, ht⟩ := exists_stands ha (.concluding result .locking)
      rw [hrun] at hs
      have hc : (s.course a.envelope.call p).Step p.bound _ := .finish before after result hs
      rw [← ht] at hc
      exact ⟨p, hp, rfl, rfl, rfl, .inr hc⟩
    · exact .same hp (stands_putAttempt_ne ha hij _) rfl

/-- Whatever moves, a call goes on by a step of its own course or not at all. -/
theorem move_follows (m : Move A V) (hp : s.parties[i]? = some p) (h : s.move m = some t) :
    s.Follows i p t := by
  cases m with
  | launch thread args bound => exact follows_launch hp h
  | accept j => exact follows_accept hp h
  | refuse j error => exact follows_refuse hp h
  | take thread k keep => exact follows_take hp h
  | drop k => exact follows_drop hp h
  | stepCaller j stray => exact follows_stepCaller hp h
  | stepAttempt k pick => exact follows_stepAttempt hp h
  | finish k result => exact follows_finish hp h
  | tick later =>
    obtain rfl := Option.some.inj h
    exact .same hp rfl rfl

end Scene
end CrossCall.Call
