import CrossCall.Proofs.Bounds
import CrossCall.Proofs.Call.Apart
import CrossCall.Proofs.Call.Outcome

/-! The patience of callers. A caller keeps the deadline that its bound had when the wait began. Only
one whose deadline there is, and has come, ends its wait without a permit or returns with a
time-out; so a caller without a deadline gives nothing up. -/

namespace CrossCall

namespace Call

variable {A V : Type}

/-- The caller has not lost patience before its time. -/
inductive CallerStand.Patient (bound : WaitBound) (now : Instant) : CallerStand V → Prop where
  | handing : Patient bound now .handing
  | arriving : Patient bound now (.collecting none (.waiting .arriving))
  | locking (since : Instant) (cause : Signal.Cause) :
      (cause = .expiry → bound.IsDue since now) →
      Patient bound now (.collecting (some since) (.waiting (.locking (bound.deadline since) cause)))
  | looking (since : Instant) (cause : Signal.Cause) :
      (cause = .expiry → bound.IsDue since now) →
      Patient bound now (.collecting (some since) (.waiting (.looking (bound.deadline since) cause)))
  | parked (since : Instant) :
      Patient bound now (.collecting (some since) (.waiting (.parked (bound.deadline since))))
  | lockingPhase (since : Instant) (signaled : Bool) :
      (signaled = false → bound.IsDue since now) →
      Patient bound now (.collecting (some since) (.locking signaled))
  | holdingPhase (since : Instant) (signaled : Bool) :
      (signaled = false → bound.IsDue since now) →
      Patient bound now (.collecting (some since) (.holding signaled))
  | returned (outcome : Except InvokeError V) :
      (outcome = .error .timedOut → ∃ since, bound.IsDue since now) →
      Patient bound now (.returned outcome)

namespace CallerStand.Patient

variable {bound : WaitBound} {now later : Instant} {caller caller' : CallerStand V}
  {m : Moment} {c c' : Call V}

theorem mono (h : caller.Patient bound now) (hle : now ≤ later) : caller.Patient bound later := by
  cases h with
  | handing => exact .handing
  | arriving => exact .arriving
  | locking since cause hd => exact .locking since cause fun hc => (hd hc).mono hle
  | looking since cause hd => exact .looking since cause fun hc => (hd hc).mono hle
  | parked since => exact .parked since
  | lockingPhase since signaled hd => exact .lockingPhase since signaled fun hc => (hd hc).mono hle
  | holdingPhase since signaled hd => exact .holdingPhase since signaled fun hc => (hd hc).mono hle
  | returned outcome hd =>
    refine .returned outcome fun ho => ?_
    obtain ⟨since, hdue⟩ := hd ho
    exact ⟨since, hdue.mono hle⟩

/-- A caller's step keeps its patience; who took a permit finds an outcome that is not a time-out. -/
theorem step (h : caller.Patient bound m.now) (hs : CallerStep bound m c caller c' caller')
    (hserved : ∀ since, caller = .collecting since (.holding true) →
      takeOutcome c.phase ≠ .error .timedOut) : caller'.Patient bound m.now := by
  cases hs with
  | wait since pc pc' s hw =>
    cases hw with
    | arrive =>
      cases h with
      | arriving => exact .locking m.now .arrival nofun
    | lock deadline cause hh =>
      cases h with
      | locking since cause hd => exact .looking since cause hd
    | park deadline cause hn hc =>
      cases h with
      | looking since cause hd => exact .parked since
    | notice deadline hm =>
      cases h with
      | parked since => exact .locking since .notification nofun
    | expire deadline hm hd =>
      cases h with
      | parked since => exact .locking since .expiry fun _ => WaitBound.isDue_of_any hd
    | stray deadline hm hd hs =>
      cases h with
      | parked since => exact .locking since .stray nofun
  | waited since pc s signaled hw =>
    cases hw with
    | take deadline cause hn =>
      cases h with
      | looking since cause hd => exact .lockingPhase since true nofun
    | miss deadline hn =>
      cases h with
      | looking since cause hd => exact .lockingPhase since false fun _ => hd rfl
  | lock since signaled hh =>
    cases h with
    | lockingPhase since signaled hd => exact .holdingPhase since signaled hd
  | settle since => exact .returned _ fun ho => absurd ho (hserved since rfl)
  | abandon since =>
    cases h with
    | holdingPhase since signaled hd => exact .returned _ fun _ => ⟨since, hd rfl⟩

end CallerStand.Patient

namespace Scene

variable {s t : Scene A V} {m : Move A V} {i : Nat} {p : Party A V}

theorem now_le_of_move (h : s.move m = some t) : s.now ≤ t.now := by
  cases change_of_move h with
  | tick later => exact Nat.le_max_left ..
  | _ => exact Nat.le_refl _

theorem Sound.takeOutcome_ne (h : s.Sound) (hp : s.parties[i]? = some p) {since : Option Instant}
    (hc : p.caller = .collecting since (.holding true)) :
    takeOutcome p.call.phase ≠ .error .timedOut := by
  obtain ⟨r, hk, -⟩ := (h.courses i p hp).run_of_holding hc
  intro ho
  have hreports := hk.reports
  rw [show takeOutcome (s.course i p).call.phase = _ from ho] at hreports
  cases hreports

theorem Reachable.patient (h : s.Reachable) :
    ∀ (i : Nat) p, s.parties[i]? = some p → p.caller.Patient p.bound s.now := by
  induction h with
  | start hs =>
    intro i p hp
    rw [hs.1] at hp
    cases hp
  | @move s t m hr hm ih =>
    have hsound : s.Sound := Reachable.sound hr
    intro i q hq
    by_cases hi : i < s.parties.length
    · obtain ⟨p, hp⟩ : ∃ p, s.parties[i]? = some p := ⟨_, List.getElem?_eq_getElem hi⟩
      obtain ⟨q', hq', -, -, hbound, -⟩ := move_follows m hp hm
      obtain rfl := Option.some.inj (hq'.symm.trans hq)
      rw [hbound]
      refine CallerStand.Patient.mono ?_ (now_le_of_move hm)
      cases callerMove_of_move hm hp with
      | rest m q' hq' hc =>
        obtain rfl := Option.some.inj (hq'.symm.trans hq)
        exact hc ▸ ih i p hp
      | accept hc ht =>
        subst ht
        obtain rfl := Option.some.inj ((parties_modify_self _ hp).symm.trans hq)
        exact .arriving
      | refuse error hc ht =>
        subst ht
        obtain rfl := Option.some.inj ((parties_modify_self _ hp).symm.trans hq)
        exact .returned _ nofun
      | step stray call caller hs ht =>
        subst ht
        obtain rfl := Option.some.inj ((parties_put hp call caller).symm.trans hq)
        exact (ih i p hp).step hs fun since hc => hsound.takeOutcome_ne hp hc
    · -- A call that was not there before has only been made.
      rcases hsound.move_party hm hq with ⟨p, hp, -⟩ | hnew
      · exact absurd (List.getElem?_eq_some_iff.mp hp).1 hi
      · rw [show q.caller = .handing from congrArg Course.caller hnew]
        exact .handing

/-- Who is never due gives nothing up. -/
theorem Reachable.not_abandoned (h : s.Reachable) (hp : s.parties[i]? = some p)
    (hnever : ∀ since, ¬ p.bound.IsDue since s.now) : p.call.phase ≠ .abandoned := by
  intro hphase
  have hc := (h.sound.courses i p hp).stage.returned_of_abandoned hphase
  have hpatient := h.patient i p hp
  rw [show p.caller = _ from hc] at hpatient
  cases hpatient with
  | returned outcome hd =>
    obtain ⟨since, hdue⟩ := hd rfl
    exact hnever since hdue

end Scene
end Call
end CrossCall
