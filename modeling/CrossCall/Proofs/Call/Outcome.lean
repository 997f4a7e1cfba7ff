import CrossCall.Proofs.Call.Starts
import CrossCall.Proofs.Script.Attempting

/-! What the outcome of a call tells of its run. A value or a panic is that of the one run there
is, which is over by then; a time-out is one of the caller's own wait; and what goes on after the
call was given up reaches nobody. -/

namespace CrossCall.Call

variable {A V : Type}

namespace Stage

variable {phase : Phase V} {permits : Nat} {caller : CallerStand V} {runs : List (TargetStand V)}
  {outcome : Except InvokeError V}

theorem cases_of_returned (h : Stage phase permits (.returned outcome) runs) :
    (∃ r, Reports outcome r ∧ runs = [.over (some r)]) ∨ outcome = .error .timedOut ∨
      ∃ e, outcome = .error (.dispatch e) := by
  cases h with
  | settled hr => exact .inl ⟨_, hr, rfl⟩
  | abandoned | abandonedRun | abandonedOver => exact .inr (.inl rfl)
  | refused e => exact .inr (.inr ⟨e, rfl⟩)
  | refusedRun e => exact .inr (.inr ⟨e, rfl⟩)
  | dispatched hc | running hc | storing _ hc | stored _ hc | raised _ hc | served _ hc => cases hc

theorem running_or_over_of_abandoned (h : Stage phase permits caller runs)
    (hp : phase = .abandoned) : ∀ stand ∈ runs, stand.isRunning ∨ stand.isOver := by
  subst hp
  intro stand hm
  cases h with
  | abandoned => cases hm
  | abandonedRun hs => exact .inl (List.mem_singleton.mp hm ▸ hs)
  | abandonedOver => exact .inr (List.mem_singleton.mp hm ▸ rfl)
  | stored hk | raised hk | refusedRun _ hk | served hk => cases hk

end Stage

/-- The caller's wait has ended without a permit, and the caller has not returned. -/
def CallerStand.hasMissed : CallerStand V → Bool
  | .collecting _ (.locking false) | .collecting _ (.holding false) => true
  | _ => false

namespace Course

variable {c d : Course V} {bound : WaitBound} {outcome : Except InvokeError V}

/-- A caller who took a permit and holds the lock finds the outcome of a run that is over. -/
theorem Sound.run_of_holding (h : c.Sound) {since : Option Instant}
    (hc : c.caller = .collecting since (.holding true)) :
    ∃ r, Keeps c.call.phase r ∧ c.stands.filter TargetStand.hasStarted = [.over (some r)] := by
  obtain ⟨-, r, stand, hk, hruns, hs⟩ := h.stage.of_served (by rw [hc]; rfl)
  have hmem : stand ∈ c.stands := (List.mem_filter.mp (hruns ▸ List.mem_singleton_self stand)).1
  have hfree := h.not_holds (by rw [hc]; rfl) stand hmem
  cases hs with
  | ended => exact ⟨r, hk, hruns⟩
  | _ => exact absurd rfl hfree

theorem Step.returns (hs : c.Step bound d) (hc : ∀ o, c.caller ≠ .returned o)
    (hd : d.caller = .returned outcome) :
    (∃ e, outcome = .error (.dispatch e)) ∨
      (∃ since, c.caller = .collecting since (.holding true) ∧ outcome = takeOutcome c.call.phase) ∨
      ∃ since, c.caller = .collecting since (.holding false) ∧ outcome = .error .timedOut := by
  cases hs with
  | refuse error => exact .inl ⟨error, (CallerStand.returned.inj hd).symm⟩
  | caller m call caller hs =>
    generalize c.caller = old at hs
    cases hs with
    | settle since => exact .inr (.inl ⟨since, rfl, (CallerStand.returned.inj hd).symm⟩)
    | abandon since => exact .inr (.inr ⟨since, rfl, (CallerStand.returned.inj hd).symm⟩)
    | _ => cases hd
  | accept => cases hd
  | _ => exact absurd hd (hc outcome)

/-- How a caller comes to know that its wait has ended without a permit: the wait, its time over,
has looked once more and found none. -/
theorem Step.misses (hs : c.Step bound d) (hc : ¬ c.caller.hasMissed) (hd : d.caller.hasMissed) :
    ∃ since deadline since', c.caller = .collecting since (.waiting (.looking deadline .expiry)) ∧
      c.call.signal.permits = 0 ∧ d.caller = .collecting since' (.locking false) := by
  cases hs with
  | accept | refuse => cases hd
  | caller m call caller hs =>
    generalize c.caller = old at hs hc
    cases hs with
    | waited since pc s signaled hw =>
      cases hw with
      | take => cases hd
      | miss deadline hn => exact ⟨since, deadline, _, rfl, hn, rfl⟩
    | lock since signaled =>
      cases signaled with
      | true => cases hd
      | false => exact absurd rfl hc
    | _ => cases hd
  | _ => exact absurd hd hc

end Course

namespace Scene

variable {s s₀ t : Scene A V} {i : Nat} {p : Party A V}

/-- The callable of call `i` was run once, with these arguments, and the run is over and ended with
`r`. -/
def RanOnce (s : Scene A V) (i : Nat) (args : A) (r : Except Payload V) : Prop :=
  ∃ a, s.runs i = [a] ∧ a.envelope = ⟨i, args⟩ ∧ a.stand = .over (some r)

theorem Sound.ranOnce (h : s.Sound) (hp : s.parties[i]? = some p) {r : Except Payload V}
    (hr : (s.course i p).stands.filter TargetStand.hasStarted = [.over (some r)]) :
    s.RanOnce i p.args r := by
  have hmap : (s.runs i).map Attempt.stand = [.over (some r)] := by
    rw [← hr, course, stands, List.filter_map, List.filter_filter]
    rfl
  obtain ⟨a, hruns, hstand⟩ := List.map_eq_singleton_iff.mp hmap
  have hmem : a ∈ s.runs i := hruns ▸ List.mem_singleton_self a
  obtain ⟨ha, hst, hcall⟩ : a ∈ s.attempts ∧ a.stand.hasStarted = true ∧ a.envelope.call = i := by
    simpa [runs] using hmem
  have hargs := h.faithful a.envelope (List.mem_append_right _ (List.mem_map_of_mem ha))
  rw [hcall, hp, Option.map_some, Option.some.injEq] at hargs
  refine ⟨a, hruns, ?_, hstand⟩
  rw [← hcall, hargs]

/-! ### A run of a call that was given up -/

/-- Attempt `k` comes to its end, having run the callable with result `r`, by steps of attempts
alone. -/
def CanEnd (s : Scene A V) (k : Nat) (r : Except Payload V) : Prop :=
  ∃ ns t a, afterMoves move s ns = some t ∧ (∀ n ∈ ns, ∃ j pick, n = .stepAttempt j pick) ∧
    t.attempts[k]? = some a ∧ a.stand = .over (some r)

theorem CanEnd.after {k j pick : Nat} {r : Except Payload V} (h : t.CanEnd k r)
    (ht : s.move (.stepAttempt j pick) = some t) : s.CanEnd k r := by
  obtain ⟨ns, u, a, hu, hns, ha, hr⟩ := h
  refine ⟨.stepAttempt j pick :: ns, u, a, ?_, ?_, ha, hr⟩
  · simp [afterMoves, ht, hu]
  · rintro n (_ | ⟨_, hn⟩)
    · exact ⟨j, pick, rfl⟩
    · exact hns n hn

theorem move_stepCaller (hp : s.parties[i]? = some p) (stray : Bool) :
    s.move (.stepCaller i stray) = s.stepCaller i ⟨p.thread, s.now, stray, 0⟩ p := by
  simp only [move, hp, bind, Option.bind]

theorem move_stepAttempt {k : Nat} {a : Attempt A V} (ha : s.attempts[k]? = some a)
    (hp : s.parties[a.envelope.call]? = some p) (pick : Nat) :
    s.move (.stepAttempt k pick) =
      s.stepAttempt k ⟨a.thread, s.now, false, pick⟩ a.envelope.call p.call a.stand := by
  simp only [move, ha, hp, bind, Option.bind]

theorem attempts_putAttempt {k : Nat} {a : Attempt A V} (ha : s.attempts[k]? = some a)
    (stand : TargetStand V) : (s.putAttempt k stand).attempts[k]? = some { a with stand } := by
  simp [putAttempt, ha]

theorem attempts_putAttempt_ne {j k : Nat} (h : j ≠ k) (stand : TargetStand V) :
    (s.putAttempt j stand).attempts[k]? = s.attempts[k]? := by
  simp [putAttempt, h]

theorem canEnd_of_holding {k : Nat} {a : Attempt A V} {r : Except Payload V}
    (ha : s.attempts[k]? = some a) (hp : s.parties[a.envelope.call]? = some p)
    (hphase : p.call.phase = .abandoned) (hs : a.stand = .concluding r .holding) :
    s.CanEnd k r := by
  have hstep := move_stepAttempt ha hp 0
  simp only [hs, stepAttempt, concludeStep, hphase, Phase.isAbandoned, if_true] at hstep
  refine ⟨[.stepAttempt k 0], _, { a with stand := .over (some r) },
    Option.bind_eq_some_iff.mpr ⟨_, hstep, rfl⟩, by simp, ?_, rfl⟩
  exact attempts_putAttempt (s := s.putCall _ _) ha _

theorem canEnd_of_free {k : Nat} {a : Attempt A V} {r : Except Payload V}
    (ha : s.attempts[k]? = some a) (hp : s.parties[a.envelope.call]? = some p)
    (hphase : p.call.phase = .abandoned) (hs : a.stand = .concluding r .locking)
    (hfree : p.call.holder = none) : s.CanEnd k r := by
  have hstep := move_stepAttempt ha hp 0
  simp only [hs, stepAttempt, concludeStep, hfree, Option.isSome_none, Bool.false_eq_true,
    if_false] at hstep
  refine CanEnd.after ?_ hstep
  exact canEnd_of_holding (attempts_putAttempt (s := s.putCall _ _) ha _)
    (parties_modify_self _ hp) hphase rfl

theorem Sound.exists_holder (h : s.Sound) (hp : s.parties[i]? = some p)
    {outcome : Except InvokeError V} (hc : p.caller = .returned outcome)
    (hlock : p.call.holder ≠ none) :
    ∃ (j : Nat) (a : Attempt A V), s.attempts[j]? = some a ∧ a.envelope.call = i ∧
      a.stand.holds := by
  have hlocked := (h.courses i p hp).locked
  have hsome : p.call.holder.isSome = true := Option.isSome_iff_ne_none.mpr hlock
  simp only [course, hc, CallerStand.holds, hsome, Bool.toNat_false, Bool.toNat_true] at hlocked
  exact exists_attempt (Nat.lt_of_lt_of_eq Nat.zero_lt_one hlocked.symm)

theorem Sound.eq_of_started (h : s.Sound) {a b : Attempt A V} (ha : a ∈ s.attempts)
    (hb : b ∈ s.attempts) (hab : b.envelope.call = a.envelope.call) (has : a.stand.hasStarted)
    (hbs : b.stand.hasStarted) : b = a := by
  have hra : a ∈ s.runs a.envelope.call := List.mem_filter.mpr ⟨ha, by simp [has]⟩
  have hrb : b ∈ s.runs a.envelope.call := List.mem_filter.mpr ⟨hb, by simp [hab, hbs]⟩
  have hle := h.length_runs_le a.envelope.call
  match hr : s.runs a.envelope.call, hle with
  | [], _ => rw [hr] at hra; cases hra
  | [c], _ =>
    rw [hr, List.mem_singleton] at hra hrb
    rw [hra, hrb]

/-- A run of a call that was given up comes to its end once its callable has ended: who has the lock
gives it back by one step. -/
theorem Sound.canEnd_of_abandoned (h : s.Sound) (hp : s.parties[i]? = some p)
    (hphase : p.call.phase = .abandoned) {k : Nat} {a : Attempt A V} {r : Except Payload V}
    {pc : LockPc} (ha : s.attempts[k]? = some a) (hi : a.envelope.call = i)
    (hs : a.stand = .concluding r pc) : s.CanEnd k r := by
  subst hi
  cases pc with
  | holding => exact canEnd_of_holding ha hp hphase hs
  | locking =>
    by_cases hfree : p.call.holder = none
    · exact canEnd_of_free ha hp hphase hs hfree
    · have hc := (h.courses _ p hp).stage.returned_of_abandoned hphase
      obtain ⟨j, b, hb, hbi, hbs⟩ := h.exists_holder hp hc hfree
      -- Whoever has the lock is at the gate: any other place in a run would be that of `a`.
      have hgate : b.stand = .entering .holding := by
        refine b.stand.eq_of_holds hbs fun hst => ?_
        obtain rfl := h.eq_of_started (List.mem_of_getElem? ha) (List.mem_of_getElem? hb) hbi
          (by rw [hs]; rfl) hst
        rw [hs] at hbs
        cases hbs
      have hjk : j ≠ k := by
        rintro rfl
        obtain rfl := Option.some.inj (ha.symm.trans hb)
        rw [hs] at hgate
        cases hgate
      have hstep := move_stepAttempt hb (hbi ▸ hp) 0
      simp only [hgate, stepAttempt, enterStep, hphase, Phase.isDispatched, Bool.false_eq_true,
        if_false, hbi] at hstep
      refine CanEnd.after ?_ hstep
      refine canEnd_of_free (a := a) ?_ (parties_modify_self _ hp) rfl hs rfl
      exact (attempts_putAttempt_ne (s := s.putCall _ _) hjk _).trans ha

/-! ### What an outcome tells -/

/-- What an outcome of call `i` that comes from a run tells of it. -/
def Backs (s : Scene A V) (i : Nat) (args : A) : Except InvokeError V → Prop
  | .ok v => s.RanOnce i args (.ok v)
  | .error (.panicked text) =>
    ∃ payload, s.RanOnce i args (.error payload) ∧ payload.message = text
  | .error _ => True

theorem backs_of_reports {args : A} {outcome : Except InvokeError V} {r : Except Payload V}
    (h : Reports outcome r) (hr : s.RanOnce i args r) : s.Backs i args outcome := by
  cases h with
  | value v => exact hr
  | panic payload => exact ⟨payload, hr, rfl⟩

theorem Sound.backs_of_returned (h : s.Sound) (hp : s.parties[i]? = some p)
    {outcome : Except InvokeError V} (hc : p.caller = .returned outcome) :
    s.Backs i p.args outcome := by
  have hstage := (h.courses i p hp).stage
  rw [show (s.course i p).caller = _ from hc] at hstage
  rcases hstage.cases_of_returned with ⟨r, hr, hruns⟩ | rfl | ⟨e, rfl⟩
  · exact backs_of_reports hr (h.ranOnce hp hruns)
  · trivial
  · trivial

/-- When a caller comes to return with a value or a panic, the run is over already; when it returns
with a time-out, the wait has ended without a permit. -/
theorem Sound.backs_of_step (h : s.Sound) (hp : s.parties[i]? = some p) {d : Course V}
    (hs : (s.course i p).Step p.bound d) (hc : ∀ o, p.caller ≠ .returned o)
    {outcome : Except InvokeError V} (hd : d.caller = .returned outcome) :
    s.Backs i p.args outcome ∧
      (outcome = .error .timedOut → ∃ since, p.caller = .collecting since (.holding false)) := by
  rcases hs.returns hc hd with ⟨e, rfl⟩ | ⟨since, hold, rfl⟩ | ⟨since, hold, rfl⟩
  · exact ⟨trivial, nofun⟩
  · obtain ⟨r, hk, hruns⟩ := (h.courses i p hp).run_of_holding hold
    have hreports := hk.reports
    refine ⟨backs_of_reports hreports (h.ranOnce hp hruns), fun ho => ?_⟩
    rw [ho] at hreports
    cases hreports
  · exact ⟨trivial, fun _ => ⟨since, hold⟩⟩

/-- At one of these moves the wait of caller `i` ended without a permit. -/
def WaitMissed (s₀ : Scene A V) (ms : List (Move A V)) (i : Nat) : Prop :=
  ∃ before m after u v p q since deadline since', ms = before ++ m :: after ∧
    afterMoves move s₀ before = some u ∧ u.move m = some v ∧ u.parties[i]? = some p ∧
    p.caller = .collecting since (.waiting (.looking deadline .expiry)) ∧
    p.call.signal.permits = 0 ∧ v.parties[i]? = some q ∧
    q.caller = .collecting since' (.locking false)

theorem waitMissed_of_hasMissed {ms : List (Move A V)} (h₀ : s₀.isStart)
    (hs : afterMoves move s₀ ms = some s) (hp : s.parties[i]? = some p)
    (hc : p.caller.hasMissed) : s₀.WaitMissed ms i := by
  have hstart : ¬ ∃ p, s₀.parties[i]? = some p ∧ p.caller.hasMissed := by
    rintro ⟨p, hp, -⟩
    simp [h₀.1] at hp
  obtain ⟨before, m, after, u, v, hms, hu, hm, -, hnot, q, hq, hqc⟩ :=
    exists_turn (P := fun s => ∃ p, s.parties[i]? = some p ∧ p.caller.hasMissed) hs hstart
      ⟨p, hp, hc⟩
  have hur : u.Reachable := .trans (.start h₀) (.of_afterMoves hu)
  rcases hur.sound.move_party hm hq with ⟨p', hp', -, hstep⟩ | hnew
  · have hnotp : ¬ p'.caller.hasMissed := fun h => hnot ⟨p', hp', h⟩
    rcases hstep with hsame | hstep
    · rw [show q.caller = p'.caller from congrArg Course.caller hsame] at hqc
      exact absurd hqc hnotp
    · obtain ⟨since, deadline, since', hw, hn, hl⟩ := hstep.misses hnotp hqc
      exact ⟨before, m, after, u, v, p', q, since, deadline, since', hms, hu, hm, hp', hw, hn, hq,
        hl⟩
  · rw [show q.caller = .handing from congrArg Course.caller hnew] at hqc
    cases hqc

/-- Call `i` was given up as `p` is, and nothing reaches it any more; its run goes on and ends. -/
def Forgets (t : Scene A V) (i : Nat) (p : Party A V) : Prop :=
  ∃ q, t.parties[i]? = some q ∧ q.caller = .returned (.error .timedOut) ∧
    q.call.phase = .abandoned ∧ q.call.signal = p.call.signal ∧
    (∀ a ∈ t.runs i, a.stand.isRunning ∨ a.stand.isOver) ∧
    ∀ k a r pc, t.attempts[k]? = some a → a.envelope.call = i → a.stand = .concluding r pc →
      t.CanEnd k r

theorem Reachable.forgets (hs : s.Reachable) (hp : s.parties[i]? = some p)
    (hphase : p.call.phase = .abandoned) (ht : CrossCall.Reachable move (· = s) t) :
    t.Forgets i p := by
  have hc := (hs.sound.courses i p hp).stage.returned_of_abandoned hphase
  obtain ⟨q, hq, -, hqc, hqp, hsignal, -⟩ := hs.left hp hc ht
  have hsound : t.Sound := Reachable.sound (.trans hs ht)
  have hqa : q.call.phase = .abandoned := hqp.trans hphase
  refine ⟨q, hq, hqc, hqa, hsignal, fun a ha => ?_, fun k a r pc hk hi hstand => ?_⟩
  · obtain ⟨ha, hst⟩ := List.mem_filter.mp ha
    rw [Bool.and_eq_true, decide_eq_true_eq] at hst
    refine (hsound.courses i q hq).stage.running_or_over_of_abandoned hqa a.stand ?_
    refine List.mem_filter.mpr ⟨List.mem_map_of_mem (List.mem_filter.mpr ⟨ha, ?_⟩), hst.1⟩
    exact decide_eq_true hst.2
  · exact hsound.canEnd_of_abandoned hq hqa hk hi hstand

/-- A caller who returns with a value or a panic had it from the one run of its callable, with its
own arguments, that was over by then; one who returns with a time-out was told so by its own wait.
A caller who took a permit finds an outcome stored. Nothing of a run that goes on after the call was
given up reaches the call or unwinds into the thread that runs it. -/
theorem outcome_is_that_of_the_run {ms : List (Move A V)} (h₀ : s₀.isStart)
    (hs : afterMoves move s₀ ms = some s) (hp : s.parties[i]? = some p) :
    (∀ outcome, p.caller = .returned outcome → s.Backs i p.args outcome ∧
      ∃ before m after u v q, ms = before ++ m :: after ∧ afterMoves move s₀ before = some u ∧
        u.move m = some v ∧ afterMoves move v after = some s ∧ u.parties[i]? = some q ∧
        (∀ o, q.caller ≠ .returned o) ∧ u.Backs i p.args outcome ∧
        (outcome = .error .timedOut → s₀.WaitMissed before i ∧
          ∃ since, q.caller = .collecting since (.holding false))) ∧
      (∀ since, p.caller = .collecting since (.holding true) →
        ∃ r, Keeps p.call.phase r ∧ s.RanOnce i p.args r) ∧
      (p.call.phase = .abandoned → ∀ ns t, afterMoves move s ns = some t → t.Forgets i p) ∧
      ∀ callable body rest, (Script.executeCall i callable body).ComesTo rest →
        ∀ m w payload, rest.step m w ≠ .halted (.error payload) := by
  have hreach : s.Reachable := .trans (.start h₀) (.of_afterMoves hs)
  refine ⟨fun outcome hc => ⟨hreach.sound.backs_of_returned hp hc, ?_⟩, fun since hc => ?_,
    fun hphase ns t ht => hreach.forgets hp hphase (.of_afterMoves ht),
    fun callable body rest hrest m w payload =>
      ((Script.executeCall_neverUnwinds i callable body).comesTo hrest).ne_halted m w payload⟩
  · have hstart : ¬ ∃ p o, s₀.parties[i]? = some p ∧ p.caller = .returned o := by
      rintro ⟨p, o, hp, -⟩
      simp [h₀.1] at hp
    obtain ⟨before, m, after, u, v, hms, hu, hm, hv, hnot, q', o, hq', ho⟩ :=
      exists_turn (P := fun s => ∃ p o, s.parties[i]? = some p ∧ p.caller = .returned o) hs hstart
        ⟨p, outcome, hp, hc⟩
    have hur : u.Reachable := .trans (.start h₀) (.of_afterMoves hu)
    -- The outcome of that move is the one that the caller still has.
    obtain ⟨p', hp', hargs, ho', -⟩ := Reachable.left (.move m hur hm) hq' ho (.of_afterMoves hv)
    obtain rfl := Option.some.inj (hp.symm.trans hp')
    obtain rfl := CallerStand.returned.inj (ho'.symm.trans hc)
    rcases hur.sound.move_party hm hq' with ⟨q, hq, hqargs, hstep⟩ | hnew
    · have hqc : ∀ o, q.caller ≠ .returned o := fun o hqo => hnot ⟨q, o, hq, hqo⟩
      refine ⟨before, m, after, u, v, q, hms, hu, hm, hv, hq, hqc, ?_⟩
      rcases hstep with hsame | hstep
      · exact absurd ((congrArg Course.caller hsame).symm.trans ho) (hqc _)
      · obtain ⟨hbacks, htimed⟩ := hur.sound.backs_of_step hq hstep hqc ho
        rw [hargs, hqargs]
        refine ⟨hbacks, fun hout => ?_⟩
        obtain ⟨since, hold⟩ := htimed hout
        exact ⟨waitMissed_of_hasMissed h₀ hu hq (by rw [hold]; rfl), since, hold⟩
    · have hcaller : q'.caller = .handing := congrArg Course.caller hnew
      rw [hcaller] at ho
      cases ho
  · obtain ⟨r, hk, hruns⟩ := (hreach.sound.courses i p hp).run_of_holding hc
    exact ⟨r, hk, hreach.sound.ranOnce hp hruns⟩

/-- A callable that squares its argument, run and its outcome stored before the caller looks. -/
def squaredInTime : List (Move Nat Nat) :=
  [.launch 0 7 .infinite, .accept 0, .take 1 0 false, .stepAttempt 0 0, .stepAttempt 0 0,
    .finish 0 (.ok 49)] ++ List.replicate 7 (.stepAttempt 0 0) ++
    List.replicate 5 (.stepCaller 0 false)

theorem outcome_is_that_of_the_run_squared :
    ∃ (s : Scene Nat Nat) (p : Party Nat Nat),
      afterMoves move { strict := true } squaredInTime = some s ∧ s.parties[0]? = some p ∧
      p.caller = .returned (.ok 49) ∧ s.RanOnce 0 7 (.ok 49) := by
  have hrun := outcome_is_that_of_the_run (i := 0) ⟨rfl, rfl, rfl⟩
    (show afterMoves move { strict := true } squaredInTime = some _ from rfl) rfl
  exact ⟨_, _, rfl, rfl, rfl, (hrun.1 _ rfl).1⟩

end Scene
end CrossCall.Call
