import CrossCall.Proofs.Call.Patience
import CrossCall.Proofs.Call.Return

/-! Calls without a deadline. Their callers never give up, so the gate lets the run through, the run
finds its locks free or a caller about to free them, and what the caller returns with is the outcome
of the run. -/

namespace CrossCall.Call

variable {A V : Type}

theorem Stage.dispatched_of_nil {phase : Phase V} {permits : Nat} {caller : CallerStand V}
    (h : Stage phase permits caller []) (hd : ∀ e, caller ≠ .returned (.error (.dispatch e)))
    (ht : caller ≠ .returned (.error .timedOut)) : phase = .dispatched ∧ caller.isUnserved := by
  cases h with
  | dispatched hc => exact ⟨rfl, hc⟩
  | refused e => exact absurd rfl (hd e)
  | abandoned => exact absurd rfl ht

namespace Scene

variable {s : Scene A V} {i : Nat} {p : Party A V} {a : Attempt A V} {r : Except Payload V}

/-- The caller of call `i` is `p`, has no deadline and was not refused. -/
structure Endless (s : Scene A V) (i : Nat) (p : Party A V) : Prop where
  reachable : s.Reachable
  party : s.parties[i]? = some p
  bound : p.bound = .infinite
  accepted : ∀ e, p.caller ≠ .returned (.error (.dispatch e))

theorem stands_singleton (ha : s.attempts = [a]) (hi : a.envelope.call = i) :
    s.stands i = [a.stand] := by
  rw [stands, ha, List.filter_cons_of_pos (by simpa using hi)]
  rfl

namespace Endless

theorem patient (h : s.Endless i p) : p.caller.Patient .infinite s.now :=
  h.bound ▸ h.reachable.patient i p h.party

theorem stage (h : s.Endless i p) : Stage p.call.phase p.call.signal.permits p.caller
    ((s.stands i).filter TargetStand.hasStarted) :=
  (h.reachable.sound.courses i p h.party).stage

theorem ne_timedOut (h : s.Endless i p) : p.caller ≠ .returned (.error .timedOut) := by
  intro hc
  have hpatient := h.patient
  rw [hc] at hpatient
  cases hpatient with
  | returned outcome hd =>
    obtain ⟨since, hdue⟩ := hd rfl
    exact WaitBound.not_isDue_infinite hdue

theorem not_holds (h : s.Endless i p) (hc : p.caller.isUnserved) : p.caller.holds = false := by
  have hpatient := h.patient
  revert hc hpatient
  cases p.caller with
  | collecting since pc =>
    cases pc with
    | holding signaled =>
      cases signaled with
      | true => exact fun hc => nomatch hc
      | false =>
        intro _ hpatient
        cases hpatient with
        | holdingPhase since signaled hd => exact absurd (hd rfl) WaitBound.not_isDue_infinite
    | _ => exact fun _ _ => rfl
  | _ => exact fun _ _ => rfl

/-- The gate lets the attempt through. -/
theorem dispatched (h : s.Endless i p) (ha : s.attempts = [a]) (hi : a.envelope.call = i)
    {pc : LockPc} (hs : a.stand = .entering pc) :
    p.call.phase = .dispatched ∧ p.caller.isUnserved := by
  have hstage := h.stage
  rw [stands_singleton ha hi, hs] at hstage
  exact hstage.dispatched_of_nil h.accepted h.ne_timedOut

/-- While the callable runs, or has ended and nothing was made of its end, the call stays as it
is. -/
theorem running (h : s.Endless i p) (ha : s.attempts = [a]) (hi : a.envelope.call = i)
    (hs : a.stand.isRunning) : p.call.phase = .running ∧ p.caller.isUnserved := by
  have hstage := h.stage
  have hstarted : a.stand.hasStarted = true := by
    revert hs
    cases a.stand <;> simp [TargetStand.isRunning, TargetStand.hasStarted]
  rw [stands_singleton ha hi, List.filter_cons_of_pos hstarted, List.filter_nil] at hstage
  obtain ⟨-, hrunning | ⟨-, hc⟩⟩ := hstage.of_running hs
  · exact hrunning
  · exact absurd hc h.ne_timedOut

/-- Nobody else holds the lock of the phase where the attempt is about to take it. -/
theorem free (h : s.Endless i p) (ha : s.attempts = [a]) (hi : a.envelope.call = i)
    (hs : a.stand.holds = false) (hc : p.caller.isUnserved) : p.call.holder = none := by
  have hlocked := (h.reachable.sound.courses i p h.party).locked
  simp only [course, stands_singleton ha hi, List.countP_singleton, hs, h.not_holds hc,
    Bool.toNat_false, Nat.add_zero] at hlocked
  exact Option.isNone_iff_eq_none.mp (by simpa using hlocked.symm)

/-- Where the attempt is about to take the lock of the permits, nobody but the caller holds it. -/
theorem signal_free (h : s.Endless i p) (ha : s.attempts = [a]) (hi : a.envelope.call = i)
    (hs : a.stand.isAdding = false) (hc : p.caller.isLooking = false) :
    p.call.signal.holder = none := by
  have hlocked := (h.reachable.awake i p h.party).locked
  simp only [course, stands_singleton ha hi, List.countP_singleton, hs, hc, Bool.toNat_false,
    Nat.add_zero] at hlocked
  exact Option.isNone_iff_eq_none.mp (by simpa using hlocked.symm)

theorem ne_returned (h : s.Endless i p) (ha : s.attempts = []) (outcome : Except InvokeError V) :
    p.caller ≠ .returned outcome := by
  intro hc
  have hstage := h.stage
  rw [stands, ha] at hstage
  obtain ⟨-, hunserved⟩ := hstage.dispatched_of_nil h.accepted h.ne_timedOut
  rw [hc] at hunserved
  cases hunserved

/-- What the caller returns with is the outcome of the attempt, which is over by then. -/
theorem reports (h : s.Endless i p) (ha : s.attempts = [a]) (hi : a.envelope.call = i)
    {outcome : Except InvokeError V} (hc : p.caller = .returned outcome) :
    ∃ r, Reports outcome r ∧ a.stand = .over (some r) := by
  have hstage := h.stage
  rw [hc, stands_singleton ha hi] at hstage
  rcases hstage.cases_of_returned with ⟨r, hr, hruns⟩ | rfl | ⟨e, rfl⟩
  · have hmem : .over (some r) ∈ [a.stand].filter TargetStand.hasStarted := hruns ▸ .head _
    exact ⟨r, hr, (List.mem_singleton.mp (List.mem_filter.mp hmem).1).symm⟩
  · exact absurd hc h.ne_timedOut
  · exact absurd hc (h.accepted e)

/-- Once the attempt is over, the caller comes to its return by its own steps. -/
theorem comesBack (h : s.Endless i p) (ha : s.attempts = [a]) (hi : a.envelope.call = i)
    (hs : a.stand.isOver) (hc : p.caller ≠ .handing) : s.ComesBack i := by
  refine (h.reachable.sound.attended h.reachable.awake h.party ?_ ?_).comesBack hc
  · rw [stands_singleton ha hi]
    exact fun stand hm => List.mem_singleton.mp hm ▸ hs
  · rw [stands_singleton ha hi]
    exact List.cons_ne_nil _ _

end Endless

/-! ### Moves -/

/-- No step of a caller depends on which parked thread a notification reaches. -/
theorem stepCaller_pick (s : Scene A V) (i : Nat) (m : Moment) (p : Party A V) (pick : Nat) :
    s.stepCaller i { m with pick } p = s.stepCaller i m p := by
  unfold stepCaller
  cases p.caller with
  | collecting since pc =>
    cases pc with
    | waiting pc => cases pc <;> rfl
    | _ => rfl
  | _ => rfl

/-- No step of an attempt depends on stray wake-ups. -/
theorem stepAttempt_stray (s : Scene A V) (k : Nat) (m : Moment) (i : Nat) (call : Call V)
    (stand : TargetStand V) (stray : Bool) :
    s.stepAttempt k { m with stray } i call stand = s.stepAttempt k m i call stand := by
  cases stand with
  | entering pc => cases pc <;> rfl
  | concluding result pc => cases pc <;> rfl
  | delivering result pc =>
    cases pc with
    | raising pc => cases pc <;> rfl
    | _ => rfl
  | _ => rfl

namespace Endless

variable {call : Call V} {caller : CallerStand V} {stand : TargetStand V}

theorem tick (h : s.Endless i p) (later : Instant) :
    ({ s with now := max s.now later } : Scene A V).Endless i p :=
  ⟨.move (.tick later) h.reachable rfl, h.party, h.bound, h.accepted⟩

theorem accept (h : s.Endless i p) (hc : p.caller = .handing) :
    (s.putCaller i (.collecting none (.waiting .arriving))).Endless i
      { p with caller := .collecting none (.waiting .arriving) } := by
  refine ⟨.move (.accept i) h.reachable ?_, parties_modify_self _ h.party, h.bound, nofun⟩
  simp only [move, h.party, Option.map_some, hc]

theorem stepCaller {stray : Bool} (h : s.Endless i p)
    (hm : s.move (.stepCaller i stray) = some ((s.putCall i call).putCaller i caller)) :
    ((s.putCall i call).putCaller i caller).Endless i { p with call, caller } := by
  have hparty := parties_put h.party call caller
  have hstep : CallerStep p.bound ⟨p.thread, s.now, stray, 0⟩ p.call p.caller call caller := by
    generalize (s.putCall i call).putCaller i caller = t at hm hparty
    cases change_of_move hm with
    | stepCaller _ _ q call' caller' hq hstep =>
      obtain rfl := Option.some.inj (hq.symm.trans h.party)
      have hsame := Option.some.inj (hparty.symm.trans (parties_put hq call' caller'))
      obtain ⟨-, -, -, rfl, rfl⟩ := Party.mk.inj hsame
      exact hstep
  exact ⟨.move _ h.reachable hm, hparty, h.bound, hstep.ne_refused⟩

theorem stepAttempt {pick : Nat} (h : s.Endless i p) (ha : s.attempts = [a])
    (hi : a.envelope.call = i)
    (hs : s.stepAttempt 0 ⟨a.thread, s.now, false, pick⟩ i p.call a.stand =
      some ((s.putCall i call).putAttempt 0 stand)) :
    ((s.putCall i call).putAttempt 0 stand).Endless i { p with call } := by
  subst hi
  have hfirst : s.attempts[0]? = some a := by rw [ha]; rfl
  refine ⟨.move (.stepAttempt 0 pick) h.reachable ?_, parties_modify_self _ h.party, h.bound,
    h.accepted⟩
  rw [move_stepAttempt hfirst h.party]
  exact hs

theorem finish (h : s.Endless i p) (ha : s.attempts = [a]) (hs : a.stand = .running)
    (r : Except Payload V) : (s.putAttempt 0 (.concluding r .locking)).Endless i p := by
  refine ⟨.move (.finish 0 r) h.reachable ?_, h.party, h.bound, h.accepted⟩
  simp [move, ha, hs]

theorem take {envelope : Envelope A} (h : s.Endless i p) (hi : s.items = [envelope])
    (ha : s.attempts = []) (t : ThreadId) :
    ({ s with items := [], attempts := [{ thread := t, envelope }] } : Scene A V).Endless i p := by
  refine ⟨.move (.take t 0 false) h.reachable ?_, h.party, h.bound, h.accepted⟩
  simp [move, hi, ha]

theorem attempts_put (ha : s.attempts = [a]) :
    (s.putAttempt 0 stand).attempts = [{ a with stand }] := by
  rw [putAttempt, ha]
  rfl

end Endless

/-- A scene in which one call has just been made, the one after `n` others that queues dropped. -/
theorem exists_launched (n : Nat) (now : Instant) (t : ThreadId) (args : A) :
    ∃ s : Scene A V, s.Endless n { thread := t, args, bound := .infinite } ∧ s.now = now ∧
      s.items = [⟨n, args⟩] ∧ s.attempts = [] := by
  have hothers : ∃ s : Scene A V, s.Reachable ∧ s.now = now ∧ s.parties.length = n ∧ s.items = [] ∧
      s.attempts = [] := by
    induction n with
    | zero => exact ⟨{ strict := true, now }, .start ⟨rfl, rfl, rfl⟩, rfl, rfl, rfl, rfl⟩
    | succ n ih =>
      obtain ⟨s, hs, hnow, hlen, hitems, hattempts⟩ := ih
      have hdrop : Reachable (A := A) (V := V) { s with
          parties := s.parties ++ [{ thread := t, args, bound := .infinite }]
          items := [] } := by
        refine .move (.drop 0) (.move (.launch t args .infinite) hs rfl) ?_
        simp [move, hitems]
      exact ⟨_, hdrop, hnow, by simp [hlen], rfl, hattempts⟩
  obtain ⟨s, hs, hnow, hlen, hitems, hattempts⟩ := hothers
  refine ⟨_, ⟨.move (.launch t args .infinite) hs rfl, ?_, rfl, by simp⟩, hnow, ?_, hattempts⟩
  · rw [← hlen]
    exact List.getElem?_concat_length
  · simp [hitems, hlen]

end Scene
end CrossCall.Call
