import CrossCall.Proofs.Call.Course

/-! The stages of a call. Phase, permit, caller and run come in few combinations only: a permit is
raised once the outcome is stored, a caller who took the permit finds that outcome, and no caller
returns while the lock of the phase is held by the run. -/

namespace CrossCall.Call

variable {V : Type} {phase : Phase V} {permits : Nat} {caller caller' : CallerStand V}
  {stand stand' : TargetStand V} {r : Except Payload V} {m : Moment} {c c' : Call V}
  {bound : WaitBound}

/-- Whether an attempt holds the lock of the phase. -/
def TargetStand.holds : TargetStand V → Bool
  | .entering .holding | .concluding _ .holding | .delivering _ _ => true
  | _ => false

/-- Before the callable is started, the lock of the phase is held at the gate only. -/
theorem TargetStand.eq_of_holds (stand : TargetStand V) (h : stand.holds)
    (hs : ¬ stand.hasStarted) : stand = .entering .holding := by
  unfold holds at h
  split at h
  · rfl
  · exact absurd rfl hs
  · exact absurd rfl hs
  · cases h

/-- The callable runs, or has ended and nothing has been made of its end. -/
def TargetStand.isRunning : TargetStand V → Bool
  | .running | .concluding _ _ => true
  | _ => false

theorem TargetStand.not_over_of_isRunning (h : stand.isRunning) : ¬ stand.isOver := by
  cases stand with
  | «over» => cases h
  | _ => exact nofun

/-- The run has ended with `r` and raised the signal. -/
inductive TargetStand.Raised (r : Except Payload V) : TargetStand V → Prop where
  | notifying : Raised r (.delivering r (.raising .notifying))
  | releasing : Raised r (.delivering r .releasing)
  | ended : Raised r (.over (some r))

def CallerStand.holds : CallerStand V → Bool
  | .collecting _ (.holding _) => true
  | _ => false

/-- The caller has neither taken a permit nor returned. -/
def CallerStand.isUnserved : CallerStand V → Bool
  | .handing | .collecting _ (.waiting _) | .collecting _ (.locking false)
  | .collecting _ (.holding false) => true
  | _ => false

/-- The caller has taken a permit and has not returned. -/
def CallerStand.isServed : CallerStand V → Bool
  | .collecting _ (.locking true) | .collecting _ (.holding true) => true
  | _ => false

theorem CallerStand.isServed_eq_false (h : caller.isUnserved) : caller.isServed = false := by
  unfold isServed
  split <;> first | rfl | cases h

theorem TargetStep.hasStarted (h : TargetStep m c stand c' stand') (hs : stand.hasStarted) :
    stand'.hasStarted := by
  cases h <;> first | rfl | cases hs

theorem TargetStep.not_over (h : TargetStep m c stand c' stand') : ¬ stand.isOver := by
  cases h <;> exact nofun

theorem TargetStep.locked (h : TargetStep m c stand c' stand')
    (hh : stand.holds.toNat ≤ c.holder.isSome.toNat) :
    stand'.holds.toNat + c.holder.isSome.toNat = stand.holds.toNat + c'.holder.isSome.toNat := by
  cases h with
  | lockGate h => simp [TargetStand.holds, h]
  | lock r h => simp [TargetStand.holds, h]
  | raise r pc pc' s hr => rfl
  | raised r pc s hr => rfl
  | keep r h => rfl
  | store r => rfl
  | _ =>
    simp only [TargetStand.holds, Bool.toNat_true, Bool.toNat_false] at hh ⊢
    have hle := Bool.toNat_le c.holder.isSome
    simp only [Option.isSome_none, Bool.toNat_false]
    omega

theorem CallerStep.locked (h : CallerStep bound m c caller c' caller')
    (hh : caller.holds.toNat ≤ c.holder.isSome.toNat) :
    caller'.holds.toNat + c.holder.isSome.toNat =
      caller.holds.toNat + c'.holder.isSome.toNat := by
  cases h with
  | wait since pc pc' s hw => rfl
  | waited since pc s signaled hw => rfl
  | lock since signaled h => simp [CallerStand.holds, h]
  | _ =>
    simp only [CallerStand.holds, Bool.toNat_true, Bool.toNat_false] at hh ⊢
    have hle := Bool.toNat_le c.holder.isSome
    simp only [Option.isSome_none, Bool.toNat_false]
    omega

theorem CallerStep.ne_refused (h : CallerStep bound m c caller c' caller') (e : DispatchError) :
    caller' ≠ .returned (.error (.dispatch e)) := by
  cases h with
  | settle since => cases c.phase <;> simp [takeOutcome]
  | _ => exact nofun

/-- The phase keeps the outcome of a run that has ended with `r`. -/
inductive Keeps : Phase V → Except Payload V → Prop where
  | value (v : V) : Keeps (.completed v) (.ok v)
  | panic (p : Payload) : Keeps (.panicked p.message) (.error p)

inductive Reports : Except InvokeError V → Except Payload V → Prop where
  | value (v : V) : Reports (.ok v) (.ok v)
  | panic (p : Payload) : Reports (.error (.panicked p.message)) (.error p)

theorem keeps_outcomePhase (r : Except Payload V) :
    Keeps (outcomePhase (r.mapError Payload.message)) r := by
  cases r with
  | ok v => exact .value v
  | error p => exact .panic p

theorem Keeps.reports (h : Keeps phase r) : Reports (takeOutcome phase) r := by
  cases h with
  | value v => exact .value v
  | panic p => exact .panic p

/-- Phase, permits, caller and the attempts in which the callable was started. -/
inductive Stage : Phase V → Nat → CallerStand V → List (TargetStand V) → Prop where
  | dispatched {caller : CallerStand V} : caller.isUnserved → Stage .dispatched 0 caller []
  | refused (e : DispatchError) : Stage .dispatched 0 (.returned (.error (.dispatch e))) []
  | running {caller : CallerStand V} {stand : TargetStand V} : caller.isUnserved →
      stand.isRunning → Stage .running 0 caller [stand]
  | storing {caller : CallerStand V} (r : Except Payload V) : caller.isUnserved →
      Stage .running 0 caller [.delivering r .storing]
  | stored {phase : Phase V} {caller : CallerStand V} {r : Except Payload V}
      {pc : Signal.RaisePc} : Keeps phase r → caller.isUnserved → pc ≠ .notifying →
      Stage phase 0 caller [.delivering r (.raising pc)]
  | raised {phase : Phase V} {caller : CallerStand V} {stand : TargetStand V}
      {r : Except Payload V} : Keeps phase r → caller.isUnserved → stand.Raised r →
      Stage phase 1 caller [stand]
  | refusedRun {phase : Phase V} {r : Except Payload V} (e : DispatchError) : Keeps phase r →
      Stage phase 1 (.returned (.error (.dispatch e))) [.over (some r)]
  | served {phase : Phase V} {caller : CallerStand V} {stand : TargetStand V}
      {r : Except Payload V} : Keeps phase r → caller.isServed → stand.Raised r →
      Stage phase 0 caller [stand]
  | settled {outcome : Except InvokeError V} {r : Except Payload V} : Reports outcome r →
      Stage .settled 0 (.returned outcome) [.over (some r)]
  | abandoned : Stage .abandoned 0 (.returned (.error .timedOut)) []
  | abandonedRun {stand : TargetStand V} : stand.isRunning →
      Stage .abandoned 0 (.returned (.error .timedOut)) [stand]
  | abandonedOver {permits : Nat} (r : Except Payload V) : permits ≤ 1 →
      Stage .abandoned permits (.returned (.error .timedOut)) [.over (some r)]

namespace Stage

variable {runs : List (TargetStand V)}

theorem length_le (h : Stage phase permits caller runs) : runs.length ≤ 1 := by
  cases h <;> simp

theorem eq_nil_of_dispatched (h : Stage phase permits caller runs) (hd : phase = .dispatched) :
    runs = [] := by
  subst hd
  cases h with
  | dispatched | refused => rfl
  | stored hk | raised hk | refusedRun _ hk | served hk => cases hk

theorem unserved (h : Stage phase permits caller runs) (hc : caller.isUnserved)
    (hc' : caller'.isUnserved) : Stage phase permits caller' runs := by
  cases h with
  | dispatched => exact .dispatched hc'
  | running _ hs => exact .running hc' hs
  | storing r _ => exact .storing r hc'
  | stored hk _ hpc => exact .stored hk hc' hpc
  | raised hk _ hs => exact .raised hk hc' hs
  | served hk hs _ => rw [CallerStand.isServed_eq_false hc] at hs; cases hs
  | _ => cases hc

theorem of_served (h : Stage phase permits caller runs) (hc : caller.isServed) :
    permits = 0 ∧ ∃ r stand, Keeps phase r ∧ runs = [stand] ∧ stand.Raised r := by
  cases h with
  | served hk _ hs => exact ⟨rfl, _, _, hk, rfl, hs⟩
  | dispatched hu | running hu | storing _ hu | stored _ hu | raised _ hu =>
    rw [CallerStand.isServed_eq_false hu] at hc
    cases hc
  | _ => cases hc

theorem still_served (h : Stage phase permits caller runs) (hc : caller.isServed)
    (hc' : caller'.isServed) : Stage phase permits caller' runs := by
  obtain ⟨rfl, r, stand, hk, rfl, hs⟩ := h.of_served hc
  exact .served hk hc' hs

/-- A queue refuses an item that it has run to the end or not at all. -/
theorem refuse (h : Stage phase permits .handing runs) (ho : ∀ stand ∈ runs, stand.isOver)
    (e : DispatchError) : Stage phase permits (.returned (.error (.dispatch e))) runs := by
  cases h with
  | dispatched => exact .refused e
  | running _ hs => exact absurd (ho _ (.head _)) (TargetStand.not_over_of_isRunning hs)
  | storing r _ => cases ho _ (.head _)
  | stored hk _ hpc => cases ho _ (.head _)
  | raised hk _ hs =>
    cases hs with
    | ended => exact .refusedRun e hk
    | _ => cases ho _ (.head _)
  | served _ hs => cases hs

/-! ### The target's side -/

theorem of_running (h : Stage phase permits caller [stand]) (hs : stand.isRunning) :
    permits = 0 ∧ (phase = .running ∧ caller.isUnserved ∨
      phase = .abandoned ∧ caller = .returned (.error .timedOut)) := by
  cases h with
  | running hc _ => exact ⟨rfl, .inl ⟨rfl, hc⟩⟩
  | abandonedRun _ => exact ⟨rfl, .inr ⟨rfl, rfl⟩⟩
  | raised _ _ hr => cases hr <;> cases hs
  | served _ _ hr => cases hr <;> cases hs
  | _ => cases hs

theorem of_storing (h : Stage phase permits caller [.delivering r .storing]) :
    phase = .running ∧ permits = 0 ∧ caller.isUnserved := by
  cases h with
  | storing _ hc => exact ⟨rfl, rfl, hc⟩
  | running _ hs => cases hs
  | abandonedRun hs => cases hs
  | raised _ _ hr => cases hr
  | served _ _ hr => cases hr

theorem of_raising {pc : Signal.RaisePc}
    (h : Stage phase permits caller [.delivering r (.raising pc)]) (hpc : pc ≠ .notifying) :
    Keeps phase r ∧ permits = 0 ∧ caller.isUnserved := by
  cases h with
  | stored hk hc _ => exact ⟨hk, rfl, hc⟩
  | running _ hs => cases hs
  | abandonedRun hs => cases hs
  | raised _ _ hr => cases hr; exact absurd rfl hpc
  | served _ _ hr => cases hr; exact absurd rfl hpc

/-- Once the signal is raised, the permit is there or with the caller. -/
theorem of_raised {pc : DeliverPc} (h : Stage phase permits caller [.delivering r pc])
    (hr : (TargetStand.delivering r pc).Raised r) :
    Keeps phase r ∧ (permits = 1 ∧ caller.isUnserved ∨ permits = 0 ∧ caller.isServed) := by
  cases h with
  | raised hk hc hr => cases hr <;> exact ⟨hk, .inl ⟨rfl, hc⟩⟩
  | served hk hc hr => cases hr <;> exact ⟨hk, .inr ⟨rfl, hc⟩⟩
  | running _ hs => cases hs
  | abandonedRun hs => cases hs
  | storing => cases hr
  | stored _ _ hpc => cases hr; exact absurd rfl hpc

theorem still_running (h : Stage phase permits caller [stand]) (hs : stand.isRunning)
    (hs' : stand'.isRunning) : Stage phase permits caller [stand'] := by
  obtain ⟨rfl, ⟨rfl, hc⟩ | ⟨rfl, rfl⟩⟩ := h.of_running hs
  · exact .running hc hs'
  · exact .abandonedRun hs'

theorem pass (h : Stage phase permits caller []) (hd : phase = .dispatched)
    (hr : ∀ e, caller ≠ .returned (.error (.dispatch e))) :
    Stage .running permits caller [.running] := by
  subst hd
  cases h with
  | dispatched hc => exact .running hc rfl
  | refused e => exact absurd rfl (hr e)

theorem target (h : Stage c.phase c.signal.permits caller [stand]) (hs : stand.hasStarted)
    (ht : TargetStep m c stand c' stand') :
    Stage c'.phase c'.signal.permits caller [stand'] := by
  cases ht with
  | lockGate | pass | skip => cases hs
  | lock r hh => exact h.still_running rfl rfl
  | discard r ha =>
    obtain ⟨hn, ⟨hp, -⟩ | ⟨-, hc⟩⟩ := h.of_running rfl
    · rw [ha] at hp
      cases hp
    · show Stage c.phase c.signal.permits caller _
      rw [ha, hn, hc]
      exact .abandonedOver r (Nat.zero_le 1)
  | keep r ha =>
    obtain ⟨hn, ⟨hp, hc⟩ | ⟨hp, -⟩⟩ := h.of_running rfl
    · rw [hp, hn]
      exact .storing r hc
    · exact absurd hp ha
  | store r =>
    obtain ⟨-, hn, hc⟩ := h.of_storing
    show Stage (outcomePhase _) c.signal.permits caller _
    rw [hn]
    exact .stored (keeps_outcomePhase r) hc nofun
  | raise r pc pc' s hr =>
    cases hr with
    | lock =>
      obtain ⟨hk, hn, hc⟩ := h.of_raising nofun
      show Stage c.phase c.signal.permits caller _
      rw [hn]
      exact .stored hk hc nofun
    | add =>
      obtain ⟨hk, hn, hc⟩ := h.of_raising nofun
      show Stage c.phase (Signal.addPermit c.signal.permits) caller _
      rw [hn]
      exact .raised hk hc .notifying
  | raised r pc s hr =>
    cases hr
    show Stage c.phase (c.signal.notifyOne m.pick).permits caller _
    rw [Signal.notifyOne_permits]
    obtain ⟨hk, ⟨hn, hc⟩ | ⟨hn, hc⟩⟩ := h.of_raised .notifying <;> rw [hn]
    · exact .raised hk hc .releasing
    · exact .served hk hc .releasing
  | release r =>
    show Stage c.phase c.signal.permits caller _
    obtain ⟨hk, ⟨hn, hc⟩ | ⟨hn, hc⟩⟩ := h.of_raised .releasing <;> rw [hn]
    · exact .raised hk hc .ended
    · exact .served hk hc .ended

/-! ### The caller's side -/

theorem settle (h : Stage phase permits caller runs) (hc : caller.isServed)
    (ho : ∀ stand ∈ runs, ¬ stand.holds) :
    Stage .settled permits (.returned (takeOutcome phase)) runs := by
  obtain ⟨rfl, r, stand, hk, rfl, hs⟩ := h.of_served hc
  cases hs with
  | ended => exact .settled hk.reports
  | _ => exact absurd rfl (ho _ (.head _))

theorem abandon (h : Stage phase permits caller runs) (hc : caller.isUnserved)
    (ho : ∀ stand ∈ runs, ¬ stand.holds) :
    Stage .abandoned permits (.returned (.error .timedOut)) runs := by
  cases h with
  | dispatched => exact .abandoned
  | running _ hs => exact .abandonedRun hs
  | storing r => exact absurd rfl (ho _ (.head _))
  | stored => exact absurd rfl (ho _ (.head _))
  | raised _ _ hs =>
    cases hs with
    | ended => exact .abandonedOver _ (Nat.le_refl 1)
    | _ => exact absurd rfl (ho _ (.head _))
  | served _ hs => rw [CallerStand.isServed_eq_false hc] at hs; cases hs
  | _ => cases hc

/-- A permit is taken only from a run that has raised it. -/
theorem take (h : Stage phase permits caller runs) (hc : caller.isUnserved) (hn : 0 < permits)
    (hc' : caller'.isServed) : Stage phase (permits - 1) caller' runs := by
  cases h with
  | raised hk _ hs => exact .served hk hc' hs
  | refusedRun => cases hc
  | abandonedOver => cases hc
  | _ => cases hn

end Stage
end CrossCall.Call
