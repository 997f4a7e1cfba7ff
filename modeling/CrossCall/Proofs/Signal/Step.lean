import CrossCall.Signal

/-! What one step of a raise and of a wait can do, case by case: where the thread stands, what the
signal must be like, and what becomes of both. -/

namespace CrossCall.Signal

inductive Raises (m : Moment) (s : Signal) : RaisePc → Progress Signal RaisePc Unit → Prop where
  | lock : s.holder = none → Raises m s .locking (.going { s with holder := some m.self } .adding)
  | add : Raises m s .adding
      (.going { s with permits := addPermit s.permits, holder := none } .notifying)
  | notify : Raises m s .notifying (.finished (s.notifyOne m.pick) ())

inductive Waits (bound : WaitBound) (m : Moment) (s : Signal) :
    WaitPc → Progress Signal WaitPc Bool → Prop where
  | arrive : Waits bound m s .arriving (.going s (.locking (bound.deadline m.now) .arrival))
  | lock (deadline : Option Instant) (cause : Cause) : s.holder = none →
      Waits bound m s (.locking deadline cause)
        (.going { s with holder := some m.self } (.looking deadline cause))
  | take (deadline : Option Instant) (cause : Cause) : 0 < s.permits →
      Waits bound m s (.looking deadline cause)
        (.finished { s with permits := s.permits - 1, holder := none } true)
  | miss (deadline : Option Instant) : s.permits = 0 →
      Waits bound m s (.looking deadline .expiry) (.finished { s with holder := none } false)
  | park (deadline : Option Instant) (cause : Cause) : s.permits = 0 → cause ≠ .expiry →
      Waits bound m s (.looking deadline cause)
        (.going { s with holder := none, parked := s.parked ++ [m.self] } (.parked deadline))
  | notice (deadline : Option Instant) : m.self ∈ s.notified →
      Waits bound m s (.parked deadline)
        (.going { s with notified := s.notified.erase m.self } (.locking deadline .notification))
  | expire (deadline : Option Instant) : m.self ∉ s.notified → deadline.any (· ≤ m.now) →
      Waits bound m s (.parked deadline)
        (.going { s with parked := s.parked.erase m.self } (.locking deadline .expiry))
  | stray (deadline : Option Instant) : m.self ∉ s.notified → ¬ deadline.any (· ≤ m.now) →
      m.stray →
      Waits bound m s (.parked deadline)
        (.going { s with parked := s.parked.erase m.self } (.locking deadline .stray))

variable {m : Moment} {s : Signal}

theorem raiseStep_cases {pc : RaisePc} {p : Progress Signal RaisePc Unit}
    (h : raiseStep m s pc = p) (hp : p ≠ .blocked) : Raises m s pc p := by
  subst h
  cases pc with
  | locking =>
    cases hh : s.holder with
    | none => simpa [raiseStep, hh] using Raises.lock hh
    | some t => simp [raiseStep, hh] at hp
  | adding => exact .add
  | notifying => exact .notify

theorem waitStep_cases {bound : WaitBound} {pc : WaitPc} {p : Progress Signal WaitPc Bool}
    (h : waitStep bound m s pc = p) (hp : p ≠ .blocked) : Waits bound m s pc p := by
  subst h
  cases pc with
  | arriving => exact .arrive
  | locking deadline cause =>
    cases hh : s.holder with
    | none => simpa [waitStep, hh] using Waits.lock deadline cause hh
    | some t => simp [waitStep, hh] at hp
  | looking deadline cause =>
    by_cases hn : 0 < s.permits
    · simpa only [waitStep, if_pos hn] using Waits.take deadline cause hn
    · have h0 : s.permits = 0 := by omega
      by_cases hc : cause = .expiry
      · subst hc
        simpa only [waitStep, if_neg hn, if_true] using Waits.miss deadline h0
      · simpa only [waitStep, if_neg hn, if_neg hc] using Waits.park deadline cause h0 hc
  | parked deadline =>
    by_cases hm : m.self ∈ s.notified
    · simpa only [waitStep, if_pos hm] using Waits.notice deadline hm
    · by_cases hd : deadline.any (· ≤ m.now) = true
      · simpa only [waitStep, if_neg hm, if_pos hd] using Waits.expire deadline hm hd
      · by_cases hs : m.stray = true
        · simpa only [waitStep, if_neg hm, if_neg hd, if_pos hs] using
            Waits.stray deadline hm hd hs
        · simp only [waitStep, if_neg hm, if_neg hd, if_neg hs, ne_eq, not_true_eq_false] at hp

@[simp] theorem notifyOne_permits (s : Signal) (pick : Nat) :
    (s.notifyOne pick).permits = s.permits := by
  unfold notifyOne
  split <;> rfl

theorem notifyOne_cases (s : Signal) (pick : Nat) :
    s.parked = [] ∧ s.notifyOne pick = s ∨
      ∃ t ∈ s.parked, s.notifyOne pick =
        { s with parked := s.parked.erase t, notified := s.notified ++ [t] } := by
  unfold notifyOne
  split
  · next h =>
    refine .inl ⟨List.eq_nil_of_length_eq_zero ?_, rfl⟩
    have hle := List.getElem?_eq_none_iff.mp h
    rcases Nat.eq_zero_or_pos s.parked.length with h0 | hpos
    · exact h0
    · exact absurd (Nat.mod_lt pick hpos) (Nat.not_lt_of_le hle)
  · next t h => exact .inr ⟨t, List.mem_of_getElem? h, rfl⟩

@[simp] theorem notifyOne_holder (s : Signal) (pick : Nat) :
    (s.notifyOne pick).holder = s.holder := by
  unfold notifyOne
  split <;> rfl

end CrossCall.Signal
