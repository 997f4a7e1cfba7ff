import CrossCall.Proofs.Signal.Sound

/-! No wake-up is lost. A permit that nobody takes while a thread is parked has a notification on
its way; and when infinite waits and raises have come to rest, as many waits have returned as there
were permits for. -/

namespace CrossCall.Signal

theorem count_infinite {ops : List Operation}
    (h : ∀ op ∈ ops, op = .raise ∨ op = .wait .infinite ∨ op = .pending) :
    ops.countP Operation.isWait = ops.count (.wait .infinite) := by
  rw [List.count]
  refine List.countP_congr fun op hm => ?_
  rcases h op hm with rfl | rfl | rfl <;> decide

namespace Scene

variable {s : Scene}

/-- Thread `t` is parked, and no notification has reached it. -/
def IsParked (s : Scene) (t : ThreadId) : Prop :=
  (∃ stand, s.threads[t]? = some stand ∧ stand.isAsleep) ∧ t ∉ s.signal.notified

/-- No thread can go on but by waking without cause. -/
def IsAtRest (s : Scene) : Prop := ∀ t pick, s.move (.step t false pick) = none

theorem Sound.parked_ne_nil (h : s.Sound) {t : ThreadId} (ht : s.IsParked t) :
    s.signal.parked ≠ [] := by
  have hsleep : t ∈ s.signal.parked ++ s.signal.notified := (h.asleep t).mpr ht.1
  exact List.ne_nil_of_mem ((List.mem_append.mp hsleep).resolve_right ht.2)

/-! ### At rest -/

/-- Who holds the lock of the count can go on. -/
theorem IsAtRest.not_holds (h : s.IsAtRest) : ∀ stand ∈ s.threads, ¬ stand.holds := by
  intro stand hm hh
  obtain ⟨t, ht⟩ := List.mem_iff_getElem?.mp hm
  have hnone := h t 0
  simp only [move, ht, Option.bind_some] at hnone
  unfold Stand.holds at hh
  split at hh
  · simp [step, raiseStep] at hnone
  · next bound since deadline cause =>
    by_cases hn : 0 < s.signal.permits
    · simp [step, waitStep, hn] at hnone
    · by_cases hc : cause = .expiry <;> simp [step, waitStep, hn, hc] at hnone
  · cases hnone
  · cases hnone
  · cases hh

theorem IsAtRest.free (h : s.IsAtRest) (hs : s.Sound) : s.signal.holder = none := by
  have hlocked := hs.locked
  rw [List.countP_eq_zero.mpr h.not_holds] at hlocked
  cases hh : s.signal.holder with
  | none => rfl
  | some t => simp [hh] at hlocked

theorem IsAtRest.idle_or_parked (h : s.IsAtRest) (hs : s.Sound) {t : ThreadId} {stand : Stand}
    (ht : s.threads[t]? = some stand) :
    stand = .idle ∨ ∃ bound since deadline, stand = .waiting bound since (.parked deadline) ∧
      t ∉ s.signal.notified := by
  have hfree := h.free hs
  have hnot := h.not_holds stand (List.mem_of_getElem? ht)
  have hnone := h t 0
  simp only [move, ht, Option.bind_some] at hnone
  cases stand with
  | idle => exact .inl rfl
  | raising pc =>
    cases pc with
    | locking => simp [step, raiseStep, hfree] at hnone
    | adding => exact absurd rfl hnot
    | notifying => simp [step, raiseStep] at hnone
  | waiting bound since pc =>
    cases pc with
    | arriving => simp [step, waitStep] at hnone
    | locking deadline cause => simp [step, waitStep, hfree] at hnone
    | looking deadline cause => exact absurd rfl hnot
    | parked deadline =>
      refine .inr ⟨bound, since, deadline, rfl, fun hm => ?_⟩
      simp [step, waitStep, hm] at hnone
  | resetting pc =>
    cases pc with
    | locking => simp [step, accessStep, hfree] at hnone
    | holding => exact absurd rfl hnot
  | asking pc =>
    cases pc with
    | locking => simp [step, accessStep, hfree] at hnone
    | holding => exact absurd rfl hnot

theorem IsAtRest.quiet (h : s.IsAtRest) (hs : s.Sound) :
    s.threads.countP Stand.isRaising = 0 ∧ s.threads.countP Stand.hasAdded = 0 ∧
      s.threads.countP Stand.isWoken = 0 ∧ s.signal.notified = [] := by
  have hzero (P : Stand → Bool) (hi : P .idle = false)
      (hp : ∀ bound since deadline, P (.waiting bound since (.parked deadline)) = false) :
      s.threads.countP P = 0 := by
    rw [List.countP_eq_zero]
    intro stand hm
    obtain ⟨t, ht⟩ := List.mem_iff_getElem?.mp hm
    rcases h.idle_or_parked hs ht with rfl | ⟨bound, since, deadline, rfl, -⟩
    · rw [hi]
      exact Bool.false_ne_true
    · rw [hp]
      exact Bool.false_ne_true
  refine ⟨hzero _ rfl fun _ _ _ => rfl, hzero _ rfl fun _ _ _ => rfl,
    hzero _ rfl fun _ _ _ => rfl, ?_⟩
  rw [List.eq_nil_iff_forall_not_mem]
  intro t hm
  obtain ⟨stand, ht, ha⟩ := (hs.asleep t).mp (List.mem_append_right _ hm)
  rcases h.idle_or_parked hs ht with rfl | ⟨bound, since, deadline, rfl, hnot⟩
  · cases ha
  · exact hnot hm

/-- At rest a permit is left or a wait goes on, but not both. -/
theorem IsAtRest.permits_or_waits (h : s.IsAtRest) (hs : s.Sound) :
    s.signal.permits = 0 ∨ s.threads.countP Stand.isWaiting = 0 := by
  obtain ⟨-, hadded, hwoken, hnotified⟩ := h.quiet hs
  rcases Nat.eq_zero_or_pos (s.threads.countP Stand.isWaiting) with h0 | hpos
  · exact .inr h0
  · obtain ⟨stand, hm, hw⟩ := List.countP_pos_iff.mp hpos
    obtain ⟨t, ht⟩ := List.mem_iff_getElem?.mp hm
    rcases h.idle_or_parked hs ht with rfl | ⟨bound, since, deadline, rfl, hnot⟩
    · cases hw
    · have hbound := hs.bounded (hs.parked_ne_nil ⟨⟨_, ht, rfl⟩, hnot⟩)
      rw [hadded, hwoken, hnotified] at hbound
      exact .inl (Nat.le_zero.mp hbound)

/-- While a thread is parked there are at most as many permits as raises that have yet to notify
and notified threads that have yet to look again. So without any of these no permit is left or
nobody is parked; and of raises and infinite waits that have come to rest, as many waits as possible
have taken a permit and what is left of the permits is there. -/
theorem no_wakeup_is_lost (h : s.Reachable) :
    (∀ t, s.IsParked t → s.signal.permits ≤
      s.threads.countP Stand.hasAdded +
        (s.signal.notified.length + s.threads.countP Stand.isWoken)) ∧
    ((∀ stand ∈ s.threads, ¬ stand.hasAdded ∧ ¬ stand.isWoken) → s.signal.notified = [] →
      s.signal.permits = 0 ∨ ∀ t, ¬ s.IsParked t) ∧
    ((∀ op ∈ s.deeds.begun, op = .raise ∨ op = .wait .infinite ∨ op = .pending) →
      s.deeds.begun.count .raise ≤ capacity → s.IsAtRest →
      s.deeds.taken = min (s.deeds.begun.count .raise) (s.deeds.begun.count (.wait .infinite)) ∧
      s.signal.permits = s.deeds.begun.count .raise -
        min (s.deeds.begun.count .raise) (s.deeds.begun.count (.wait .infinite))) := by
  have hs := h.sound
  refine ⟨fun t ht => ?_, fun hquiet hn => ?_, fun hbegun hfew hrest => ?_⟩
  · rw [← Nat.add_assoc]
    exact hs.bounded (hs.parked_ne_nil ht)
  · by_cases hpark : ∃ t, s.IsParked t
    · obtain ⟨t, ht⟩ := hpark
      have hbound := hs.bounded (hs.parked_ne_nil ht)
      rw [List.countP_eq_zero.mpr fun x hx => (hquiet x hx).1,
        List.countP_eq_zero.mpr fun x hx => (hquiet x hx).2, hn] at hbound
      exact .inl (Nat.le_zero.mp hbound)
    · exact .inr (not_exists.mp hpark)
  · have hlost : s.deeds.lost = 0 := hs.lost.resolve_right (Nat.not_lt_of_le hfew)
    have hcleared : s.deeds.cleared = 0 := hs.cleared.resolve_right fun hm => by
      simpa using hbegun _ hm
    have hmissed : s.deeds.missed = 0 := hs.missed.resolve_right fun ⟨bound, hb, hm⟩ => by
      simpa [hb] using hbegun _ hm
    have hraising := (hrest.quiet hs).1
    have hledger := hs.ledger
    have hraises := hs.raises
    have hwaits := hs.waits
    rw [count_infinite hbegun] at hwaits
    rcases hrest.permits_or_waits hs with h0 | h0 <;> omega

/-- Two waits, a raise, and the wait it wakes. -/
def raisedForOneOfTwo : List Move :=
  [.begin 0 (.wait .infinite), .begin 1 (.wait .infinite), .begin 2 .raise] ++
    List.replicate 3 (.step 0 false 0) ++ List.replicate 3 (.step 1 false 0) ++
    List.replicate 3 (.step 2 false 1) ++ List.replicate 3 (.step 1 false 0)

theorem no_wakeup_is_lost_of_two :
    ∃ s : Scene, afterMoves move { threads := [.idle, .idle, .idle] } raisedForOneOfTwo = some s ∧
      s.IsAtRest ∧ s.deeds.taken = 1 ∧ s.signal.permits = 0 := by
  have hreach : ∀ s, afterMoves move { threads := [.idle, .idle, .idle] } raisedForOneOfTwo =
      some s → s.Reachable := fun _ hs =>
    .trans (.start ⟨rfl, rfl, by decide⟩) (.of_afterMoves hs)
  refine ⟨_, rfl, ?rest, (no_wakeup_is_lost (hreach _ rfl)).2.2 (by decide) (by decide) ?rest⟩
  intro t pick
  match t with
  | 0 | 1 | 2 => rfl
  | t + 3 => rfl

end Scene
end CrossCall.Signal
