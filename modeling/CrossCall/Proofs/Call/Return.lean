import CrossCall.Proofs.Call.Awake
import CrossCall.Proofs.Call.Outcome

/-! The way of a caller to its return. Once all attempts at a call are over, every lock that the
caller needs is free, and a caller for whom there is a permit, or whose wait has ended, goes on to
its return by its own steps. -/

namespace CrossCall.Call

variable {A V : Type}

/-- Where every run is over and the call was not left untouched, the caller has returned, or the
outcome of the run is stored and its permit is there or with the caller. -/
theorem Stage.of_over {phase : Phase V} {permits : Nat} {caller : CallerStand V}
    {runs : List (TargetStand V)} (h : Stage phase permits caller runs)
    (ho : ∀ stand ∈ runs, stand.isOver) (hd : runs = [] → phase ≠ .dispatched) :
    (∃ outcome, caller = .returned outcome) ∨
      ∃ r, Keeps phase r ∧ runs = [.over (some r)] ∧ (permits = 1 ∨ caller.isServed) := by
  cases h with
  | dispatched => exact absurd rfl (hd rfl)
  | running _ hs => exact absurd (ho _ (.head _)) (TargetStand.not_over_of_isRunning hs)
  | storing | stored => cases ho _ (.head _)
  | raised hk _ hs =>
    cases hs with
    | ended => exact .inr ⟨_, hk, rfl, .inl rfl⟩
    | _ => cases ho _ (.head _)
  | served hk hc hs =>
    cases hs with
    | ended => exact .inr ⟨_, hk, rfl, .inr hc⟩
    | _ => cases ho _ (.head _)
  | refused | refusedRun | settled | abandoned | abandonedRun | abandonedOver =>
    exact .inl ⟨_, rfl⟩

namespace Scene

variable {s t : Scene A V} {i : Nat} {p : Party A V}

/-- Caller `i` comes to its return by steps of its own, none of them a stray wake-up. -/
def ComesBack (s : Scene A V) (i : Nat) : Prop :=
  ∃ n t p outcome, afterMoves move s (List.replicate n (.stepCaller i false)) = some t ∧
    t.parties[i]? = some p ∧ p.caller = .returned outcome

theorem comesBack_of_returned {outcome : Except InvokeError V} (hp : s.parties[i]? = some p)
    (hc : p.caller = .returned outcome) : s.ComesBack i :=
  ⟨0, s, p, outcome, rfl, hp, hc⟩

theorem ComesBack.after (h : t.ComesBack i) (ht : s.move (.stepCaller i false) = some t) :
    s.ComesBack i := by
  obtain ⟨n, u, p, outcome, hu, hp, hc⟩ := h
  refine ⟨n + 1, u, p, outcome, ?_, hp, hc⟩
  simp [List.replicate_succ, afterMoves, ht, hu]

end Scene

namespace Party

variable {p : Party A V} {since deadline : Option Instant} {cause : Signal.Cause}

/-- The caller comes to its return wherever else things stand. -/
def ComesBack (p : Party A V) : Prop :=
  ∀ (s : Scene A V) i, s.parties[i]? = some p → s.ComesBack i

theorem comesBack_of_finished {pc : CollectPc} {call : Call V} {outcome : Except InvokeError V}
    (hc : p.caller = .collecting since pc)
    (hstep : ∀ now, collectStep p.bound ⟨p.thread, now, false, 0⟩ p.call pc =
      .finished call outcome) : p.ComesBack := by
  intro s i hp
  have ht : s.move (.stepCaller i false) =
      some ((s.putCall i call).putCaller i (.returned outcome)) := by
    simp only [Scene.move, hp, Scene.stepCaller, hc, hstep, bind, Option.bind]
  exact (Scene.comesBack_of_returned (Scene.parties_put hp call _) rfl).after ht

theorem comesBack_of_going {pc : CollectPc} {call : Call V} (pc' : Option Instant → CollectPc)
    (hc : p.caller = .collecting since pc)
    (hstep : ∀ now, collectStep p.bound ⟨p.thread, now, false, 0⟩ p.call pc =
      .going call (pc' (p.bound.deadline now)))
    (hnext : ∀ since' deadline,
      ComesBack { p with call, caller := .collecting since' (pc' deadline) }) : p.ComesBack := by
  intro s i hp
  have ht : s.move (.stepCaller i false) = some ((s.putCall i call).putCaller i
      (.collecting (some (since.getD s.now)) (pc' (p.bound.deadline s.now)))) := by
    simp only [Scene.move, hp, Scene.stepCaller, hc, hstep, bind, Option.bind]
  exact (hnext _ _ _ i (Scene.parties_put hp call _)).after ht

theorem comesBack_of_holding {signaled : Bool}
    (hc : p.caller = .collecting since (.holding signaled)) : p.ComesBack := by
  cases signaled with
  | true => exact comesBack_of_finished hc fun now => rfl
  | false => exact comesBack_of_finished hc fun now => rfl

theorem comesBack_of_locking {signaled : Bool}
    (hc : p.caller = .collecting since (.locking signaled)) (hfree : p.call.holder = none) :
    p.ComesBack := by
  have hstep (now : Instant) : collectStep p.bound ⟨p.thread, now, false, 0⟩ p.call
      (.locking signaled) = .going { p.call with holder := some p.thread } (.holding signaled) := by
    simp only [collectStep, hfree, Option.isSome_none, Bool.false_eq_true, if_false]
  exact comesBack_of_going (fun _ => .holding signaled) hc hstep
    fun _ _ => comesBack_of_holding rfl

/-- Nobody but the caller holds a lock of the call, and there is a permit. -/
structure IsServable (c : Call V) : Prop where
  free : c.holder = none
  permit : 0 < c.signal.permits

theorem comesBack_of_looking
    (hc : p.caller = .collecting since (.waiting (.looking deadline cause)))
    (hs : IsServable p.call) : p.ComesBack := by
  have hstep (now : Instant) : collectStep p.bound ⟨p.thread, now, false, 0⟩ p.call
      (.waiting (.looking deadline cause)) = .going { p.call with
        signal := { p.call.signal with permits := p.call.signal.permits - 1, holder := none } }
        (.locking true) := by
    simp only [collectStep, Signal.waitStep, if_pos hs.permit]
  exact comesBack_of_going (fun _ => .locking true) hc hstep
    fun _ _ => comesBack_of_locking rfl hs.free

theorem comesBack_of_lockingSignal
    (hc : p.caller = .collecting since (.waiting (.locking deadline cause)))
    (hs : IsServable p.call) (hopen : p.call.signal.holder = none) : p.ComesBack := by
  have hstep (now : Instant) : collectStep p.bound ⟨p.thread, now, false, 0⟩ p.call
      (.waiting (.locking deadline cause)) = .going { p.call with
        signal := { p.call.signal with holder := some p.thread } }
        (.waiting (.looking deadline cause)) := by
    simp only [collectStep, Signal.waitStep, hopen, Option.isSome_none, Bool.false_eq_true,
      if_false]
  exact comesBack_of_going (fun _ => .waiting (.looking deadline cause)) hc hstep
    fun _ _ => comesBack_of_looking rfl ⟨hs.free, hs.permit⟩

theorem comesBack_of_arriving (hc : p.caller = .collecting since (.waiting .arriving))
    (hs : IsServable p.call) (hopen : p.call.signal.holder = none) : p.ComesBack :=
  comesBack_of_going (fun deadline => .waiting (.locking deadline .arrival)) hc
    (fun _ => rfl) fun _ _ => comesBack_of_lockingSignal rfl hs hopen

theorem comesBack_of_notified (hc : p.caller = .collecting since (.waiting (.parked deadline)))
    (hs : IsServable p.call) (hopen : p.call.signal.holder = none)
    (hm : p.thread ∈ p.call.signal.notified) : p.ComesBack := by
  have hstep (now : Instant) : collectStep p.bound ⟨p.thread, now, false, 0⟩ p.call
      (.waiting (.parked deadline)) = .going { p.call with
        signal := { p.call.signal with notified := p.call.signal.notified.erase p.thread } }
        (.waiting (.locking deadline .notification)) := by
    simp only [collectStep, Signal.waitStep, if_pos hm]
  exact comesBack_of_going (fun _ => .waiting (.locking deadline .notification)) hc hstep
    fun _ _ => comesBack_of_lockingSignal rfl ⟨hs.free, hs.permit⟩ hopen

end Party

namespace Scene

variable {s : Scene A V} {i : Nat} {p : Party A V}

/-- Once all attempts are over, a caller who has done with waiting, or for whom there is a permit,
is stopped by nothing. -/
theorem Sound.comesBack (h : s.Sound) (hawake : s.Awake) (hp : s.parties[i]? = some p)
    (hover : ∀ stand ∈ s.stands i, stand.isOver) (hc : p.caller ≠ .handing)
    (hpermit : ∀ since pc, p.caller = .collecting since (.waiting pc) →
      0 < p.call.signal.permits) : s.ComesBack i := by
  have hnone {P : TargetStand V → Bool} (hP : ∀ r, P (.over r) = false) :
      (s.stands i).countP P = 0 := by
    rw [List.countP_eq_zero]
    intro stand hm
    cases stand with
    | «over» r => rw [hP r]; exact Bool.false_ne_true
    | _ => cases hover _ hm
  have hlocked := (h.courses i p hp).locked
  have hsignal := (hawake i p hp).locked
  simp only [course, hnone (P := TargetStand.holds) fun _ => rfl,
    hnone (P := TargetStand.isAdding) fun _ => rfl, Nat.zero_add] at hlocked hsignal
  have hfree (hh : p.caller.holds = false) : p.call.holder = none := by
    rw [hh] at hlocked
    exact Option.isNone_iff_eq_none.mp (by simpa using hlocked.symm)
  have hopen (hl : p.caller.isLooking = false) : p.call.signal.holder = none := by
    rw [hl] at hsignal
    exact Option.isNone_iff_eq_none.mp (by simpa using hsignal.symm)
  cases hcaller : p.caller with
  | handing => exact absurd hcaller hc
  | returned outcome => exact comesBack_of_returned hp hcaller
  | collecting since pc =>
    have hback : p.ComesBack := by
      rw [hcaller] at hfree hopen
      cases pc with
      | holding signaled => exact Party.comesBack_of_holding hcaller
      | locking signaled => exact Party.comesBack_of_locking hcaller (hfree rfl)
      | waiting pc =>
        have hs : Party.IsServable p.call := ⟨hfree rfl, hpermit since pc hcaller⟩
        cases pc with
        | arriving => exact Party.comesBack_of_arriving hcaller hs (hopen rfl)
        | locking deadline cause => exact Party.comesBack_of_lockingSignal hcaller hs (hopen rfl)
        | looking deadline cause => exact Party.comesBack_of_looking hcaller hs
        | parked deadline =>
          have hparked : (s.course i p).caller.isParked := by
            rw [show (s.course i p).caller = _ from hcaller]
            rfl
          rcases (hawake i p hp).parked_or_notified hparked with ⟨hu, -⟩ | ⟨-, hu⟩
          · -- The one who would still have to notify is over.
            obtain ⟨stand, hm, hx⟩ := (hawake i p hp).roused hs.permit (hu ▸ List.cons_ne_nil _ _)
            have hstand := hover stand hm
            cases stand <;> first | cases hx | cases hstand
          · refine Party.comesBack_of_notified hcaller hs (hopen rfl) ?_
            rw [show p.call.signal.notified = [p.thread] from hu]
            exact List.mem_singleton_self _
    exact hback s i hp

/-- Every attempt at the call is over: the caller has returned, or its outcome lies ready, and it
comes back. -/
structure Attended (s : Scene A V) (i : Nat) (p : Party A V) : Prop where
  outcome : (∃ outcome, p.caller = .returned outcome) ∨ ∃ r, Keeps p.call.phase r ∧
    s.RanOnce i p.args r ∧ (p.call.signal.permits = 1 ∨ p.caller.isServed)
  comesBack : p.caller ≠ .handing → s.ComesBack i

theorem Sound.attended (h : s.Sound) (hawake : s.Awake) (hp : s.parties[i]? = some p)
    (hover : ∀ stand ∈ s.stands i, stand.isOver) (hsome : s.stands i ≠ []) : s.Attended i p := by
  have houtcome : (∃ outcome, p.caller = .returned outcome) ∨ ∃ r, Keeps p.call.phase r ∧
      (s.course i p).stands.filter TargetStand.hasStarted = [.over (some r)] ∧
      (p.call.signal.permits = 1 ∨ p.caller.isServed) := by
    refine (h.courses i p hp).stage.of_over (fun stand hm => hover stand (List.mem_filter.mp hm).1)
      fun hnil => (hawake i p hp).skipped ?_
    -- No attempt has started the callable, so each of them was turned away.
    obtain ⟨stand, hm⟩ := List.exists_mem_of_ne_nil _ hsome
    have hnot := List.filter_eq_nil_iff.mp hnil stand hm
    cases stand with
    | «over» r =>
      cases r with
      | none => exact hm
      | some r => exact absurd rfl hnot
    | _ => cases hover _ hm
  refine ⟨houtcome.imp_right fun ⟨r, hk, hruns, hn⟩ => ⟨r, hk, h.ranOnce hp hruns, hn⟩, fun hc => ?_⟩
  refine h.comesBack hawake hp hover hc fun since pc hwait => ?_
  rcases houtcome with ⟨outcome, hreturned⟩ | ⟨r, -, -, hn | hserved⟩
  · rw [hwait] at hreturned
    cases hreturned
  · exact hn ▸ Nat.one_pos
  · rw [hwait] at hserved
    cases hserved

end Scene
end CrossCall.Call
