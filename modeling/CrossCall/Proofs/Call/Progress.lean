import CrossCall.Proofs.Call.Patience
import CrossCall.Proofs.Call.Return

/-! Who can go on in a call. Who holds the lock of the permits waits for no lock, and who holds the
lock of the phase waits at most for that of the permits; the callable runs under neither. So a
caller can go on, or somebody can who keeps it from a lock, unless it is parked and nothing has come
for it yet. -/

namespace CrossCall.Call

variable {A V : Type}

/-- The attempt is neither in its callable nor over. -/
def TargetStand.isUnderway : TargetStand V → Bool
  | .running | .over _ => false
  | _ => true

theorem TargetStand.isUnderway_of_holds {stand : TargetStand V} (h : stand.holds) :
    stand.isUnderway := by
  cases stand with
  | running | «over» r => cases h
  | _ => rfl

theorem TargetStand.running_or_over {stand : TargetStand V} (h : ¬ stand.isUnderway) :
    stand = .running ∨ stand.isOver := by
  cases stand with
  | running => exact .inl rfl
  | «over» r => exact .inr rfl
  | _ => exact absurd rfl h

theorem TargetStand.holds_of_isAdding {stand : TargetStand V} (h : stand.isAdding) : stand.holds := by
  unfold isAdding at h
  split at h
  · rfl
  · cases h

theorem TargetStand.not_raising_of_isAdding {stand : TargetStand V} (h : stand.isAdding)
    {P : Prop} (r : Except Payload V) (hs : stand = .delivering r (.raising .locking)) : P := by
  rw [hs] at h
  cases h

theorem CallerStand.exists_of_isLooking (caller : CallerStand V) (h : caller.isLooking) :
    ∃ since deadline cause, caller = .collecting since (.waiting (.looking deadline cause)) := by
  unfold isLooking at h
  split at h
  · exact ⟨_, _, _, rfl⟩
  · cases h

theorem CallerStand.exists_of_holds (caller : CallerStand V) (h : caller.holds) :
    ∃ since signaled, caller = .collecting since (.holding signaled) := by
  unfold holds at h
  split at h
  · exact ⟨_, _, rfl⟩
  · cases h

namespace Scene

variable {s t : Scene A V} {m : Move A V} {i k : Nat} {p : Party A V} {a : Attempt A V}

/-- A step of the caller of call `i`, if it stands like `P`, or of an attempt at it that stands like
`Q`. -/
inductive StepsFrom (P : CallerStand V → Bool) (Q : TargetStand V → Bool) (s : Scene A V) (i : Nat) :
    Move A V → Prop where
  | caller (p : Party A V) : s.parties[i]? = some p → P p.caller →
      StepsFrom P Q s i (.stepCaller i false)
  | attempt (k pick : Nat) (a : Attempt A V) : s.attempts[k]? = some a → a.envelope.call = i →
      Q a.stand → StepsFrom P Q s i (.stepAttempt k pick)

/-- A step of who holds the lock of the phase. -/
def HoldsPhase : Scene A V → Nat → Move A V → Prop := StepsFrom CallerStand.holds TargetStand.holds

/-- A step of who holds the lock of the permits. -/
def HoldsPermits : Scene A V → Nat → Move A V → Prop :=
  StepsFrom CallerStand.isLooking TargetStand.isAdding

/-! ### Whose step is possible -/

/-- Nothing but the two locks stops an attempt that is neither in its callable nor over. -/
theorem isSome_stepAttempt {m : Moment} {call : Call V} {stand : TargetStand V}
    (hs : stand.isUnderway) (hfree : stand.holds ∨ call.holder = none)
    (hopen : ∀ r, stand = .delivering r (.raising .locking) → call.signal.holder = none) :
    (s.stepAttempt k m i call stand).isSome := by
  cases stand with
  | running | «over» r => cases hs
  | entering pc =>
    cases pc with
    | locking => simp [stepAttempt, enterStep, hfree.resolve_left Bool.false_ne_true]
    | holding =>
      simp only [stepAttempt, enterStep]
      cases call.phase.isDispatched <;> rfl
  | concluding r pc =>
    cases pc with
    | locking => simp [stepAttempt, concludeStep, hfree.resolve_left Bool.false_ne_true]
    | holding =>
      simp only [stepAttempt, concludeStep]
      cases call.phase.isAbandoned <;> rfl
  | delivering r pc =>
    cases pc with
    | storing | releasing => rfl
    | raising pc =>
      cases pc with
      | adding | notifying => rfl
      | locking => simp [stepAttempt, deliverStep, Signal.raiseStep, hopen r rfl]

theorem exists_stepAttempt (ha : s.attempts[k]? = some a)
    (hp : s.parties[a.envelope.call]? = some p) (hs : a.stand.holds)
    (hopen : ∀ r, a.stand = .delivering r (.raising .locking) → p.call.signal.holder = none)
    (pick : Nat) : ∃ t, s.move (.stepAttempt k pick) = some t := by
  rw [move_stepAttempt ha hp]
  exact Option.isSome_iff_exists.mp
    (isSome_stepAttempt (TargetStand.isUnderway_of_holds hs) (.inl hs) hopen)

theorem exists_stepCaller (hp : s.parties[i]? = some p) {since : Option Instant} {pc : CollectPc}
    (hc : p.caller = .collecting since pc)
    (hstep : collectStep p.bound ⟨p.thread, s.now, false, 0⟩ p.call pc ≠ .blocked) :
    ∃ t, s.move (.stepCaller i false) = some t := by
  rw [move_stepCaller hp]
  simp only [stepCaller, hc]
  split
  · contradiction
  · exact ⟨_, rfl⟩
  · exact ⟨_, rfl⟩

theorem collectStep_looking_ne {bound : WaitBound} {m : Moment} {call : Call V}
    {deadline : Option Instant} {cause : Signal.Cause} :
    collectStep bound m call (.waiting (.looking deadline cause)) ≠ .blocked := by
  simp only [collectStep, Signal.waitStep]
  by_cases hn : 0 < call.signal.permits
  · simp only [if_pos hn, ne_eq, reduceCtorEq, not_false_eq_true]
  · by_cases he : cause = .expiry
    · simp only [if_neg hn, if_pos he, ne_eq, reduceCtorEq, not_false_eq_true]
    · simp only [if_neg hn, if_neg he, ne_eq, reduceCtorEq, not_false_eq_true]

theorem collectStep_holding_ne {bound : WaitBound} {m : Moment} {call : Call V} {signaled : Bool} :
    collectStep bound m call (.holding signaled) ≠ .blocked := by
  cases signaled <;> exact nofun

/-- Where another one has a lock that the caller may need, it is an attempt that can go on. -/
theorem Sound.exists_release (h : s.Sound) (hw : s.Awake) (hp : s.parties[i]? = some p)
    (hl : p.caller.isLooking = false)
    (hlock : p.call.signal.holder ≠ none ∨ p.call.holder ≠ none ∧ p.caller.holds = false) :
    ∃ (k : Nat) (a : Attempt A V), s.attempts[k]? = some a ∧ a.envelope.call = i ∧ a.stand.holds ∧
      ∀ pick, ∃ t, s.move (.stepAttempt k pick) = some t := by
  by_cases hopen : p.call.signal.holder = none
  · obtain ⟨hlock, hc⟩ := hlock.resolve_left fun hne => hne hopen
    have hlocked := (h.courses i p hp).locked
    simp only [course, hc, Bool.toNat_false, Nat.add_zero,
      Option.isSome_iff_ne_none.mpr hlock, Bool.toNat_true] at hlocked
    obtain ⟨k, a, ha, hi, hs⟩ := exists_attempt (hlocked ▸ Nat.one_pos)
    exact ⟨k, a, ha, hi, hs, exists_stepAttempt ha (hi ▸ hp) hs fun _ _ => hopen⟩
  · have hlocked := (hw i p hp).locked
    simp only [course, hl, Bool.toNat_false, Nat.add_zero,
      Option.isSome_iff_ne_none.mpr hopen, Bool.toNat_true] at hlocked
    obtain ⟨k, a, ha, hi, hs⟩ := exists_attempt (hlocked ▸ Nat.one_pos)
    have hh := TargetStand.holds_of_isAdding hs
    exact ⟨k, a, ha, hi, hh,
      exists_stepAttempt ha (hi ▸ hp) hh (TargetStand.not_raising_of_isAdding hs)⟩

/-- A lock that those who stand like `P` and `Q` hold is taken just when one of them can be told. -/
theorem locked_iff {P : CallerStand V → Bool} {Q : TargetStand V → Bool}
    (hp : s.parties[i]? = some p) {holder : Option ThreadId}
    (h : (s.stands i).countP Q + (P p.caller).toNat = holder.isSome.toNat) :
    holder ≠ none ↔ ∃ m, StepsFrom P Q s i m := by
  have htaken : holder ≠ none ↔ 0 < (s.stands i).countP Q + (P p.caller).toNat := by
    rw [h]
    cases holder <;> simp
  rw [htaken]
  constructor
  · intro hpos
    by_cases hP : P p.caller = true
    · exact ⟨_, .caller p hp hP⟩
    · rw [(Bool.not_eq_true _).mp hP] at hpos
      obtain ⟨k, a, ha, hi, hQ⟩ := exists_attempt hpos
      exact ⟨_, .attempt k 0 a ha hi hQ⟩
  · rintro ⟨m, hm⟩
    cases hm with
    | caller q hq hP =>
      obtain rfl := Option.some.inj (hp.symm.trans hq)
      rw [hP]
      exact Nat.succ_pos _
    | attempt k pick a ha hi hQ =>
      exact Nat.add_pos_left (List.countP_pos_iff.mpr ⟨a.stand, mem_stands ha hi, hQ⟩) _

theorem Sound.phase_locked_iff (h : s.Sound) (hp : s.parties[i]? = some p) :
    p.call.holder ≠ none ↔ ∃ m, s.HoldsPhase i m :=
  locked_iff hp (h.courses i p hp).locked

/-- This move of call `i` is possible and leaves this lock of it free. -/
def Frees (s : Scene A V) (i : Nat) (m : Move A V) (lock : Call V → Option ThreadId) : Prop :=
  ∃ t q, s.move m = some t ∧ t.parties[i]? = some q ∧ lock q.call = none

/-- Who holds the lock of the permits waits for nothing, and gives the lock back by its next step. -/
theorem HoldsPermits.frees (h : s.HoldsPermits i m) (hp : s.parties[i]? = some p) :
    s.Frees i m (·.signal.holder) := by
  cases h with
  | caller q hq hlook =>
    obtain rfl := Option.some.inj (hp.symm.trans hq)
    obtain ⟨since, deadline, cause, hc⟩ := p.caller.exists_of_isLooking hlook
    obtain ⟨t, ht⟩ := exists_stepCaller hp hc collectStep_looking_ne
    obtain ⟨call, caller, hstep, rfl⟩ := stepCaller_cases ((move_stepCaller hp false).symm.trans ht)
    refine ⟨_, _, ht, parties_put hp call caller, ?_⟩
    rw [hc] at hstep
    cases hstep with
    | wait since pc pc' signal hw | waited since pc signal signaled hw => cases hw <;> rfl
  | attempt k pick a ha hi hadd =>
    subst hi
    obtain ⟨t, ht⟩ := exists_stepAttempt ha hp (TargetStand.holds_of_isAdding hadd)
      (TargetStand.not_raising_of_isAdding hadd) pick
    obtain ⟨call, stand, hstep, rfl⟩ :=
      stepAttempt_cases ((move_stepAttempt ha hp pick).symm.trans ht)
    refine ⟨_, _, ht, parties_modify_self _ hp, ?_⟩
    generalize a.stand = old at hadd hstep
    cases hstep with
    | raise r pc pc' signal hr =>
      cases hr with
      | add => rfl
      | lock => cases hadd
    | raised r pc signal hr => cases hr; cases hadd
    | _ => cases hadd

end Scene
end CrossCall.Call
