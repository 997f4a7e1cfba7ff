import CrossCall.Proofs.Runs
import CrossCall.Proofs.Signal.Step
import CrossCall.Signal.Scene

/-! A turn of one thread at a signal: what it makes of the signal, of where the thread stands, and
of what has been done. Each turn passes the lock on, keeps the books on permits, raises and waits,
and lets a thread fall asleep only when no permit is left. -/

namespace CrossCall.Signal

namespace Stand

def holds : Stand → Bool
  | .raising .adding | .waiting _ _ (.looking _ _) | .resetting .holding | .asking .holding => true
  | _ => false

/-- In a raise, and its permit is not there yet. -/
def isRaising : Stand → Bool
  | .raising .locking | .raising .adding => true
  | _ => false

/-- In a raise that has left its permit and has not notified. -/
def hasAdded : Stand → Bool
  | .raising .notifying => true
  | _ => false

def isWaiting : Stand → Bool
  | .waiting _ _ _ => true
  | _ => false

/-- Parked, or woken by a notification that it has not noticed. -/
def isAsleep : Stand → Bool
  | .waiting _ _ (.parked _) => true
  | _ => false

/-- Woken by a notification, and about to look at the count again. -/
def isWoken : Stand → Bool
  | .waiting _ _ (.locking _ .notification) | .waiting _ _ (.looking _ .notification) => true
  | _ => false

def operation : Stand → Option Operation
  | .idle => none
  | .raising _ => some .raise
  | .waiting bound _ _ => some (.wait bound)
  | .resetting _ => some .reset
  | .asking _ => some .pending

/-- An infinite wait has no deadline. -/
def isPatient : Stand → Bool
  | .waiting .infinite _ (.locking deadline cause)
  | .waiting .infinite _ (.looking deadline cause) => deadline = none && cause ≠ .expiry
  | .waiting .infinite _ (.parked deadline) => deadline = none
  | _ => true

end Stand

/-- The threads that are parked or woken and still asleep. -/
def sleepers (s : Signal) : List ThreadId := s.parked ++ s.notified

inductive Turn (m : Moment) (s : Signal) (d : Deeds) : Stand → Signal → Stand → Deeds → Prop where
  | lockRaise : s.holder = none →
      Turn m s d (.raising .locking) { s with holder := some m.self } (.raising .adding) d
  | add : Turn m s d (.raising .adding) { s with permits := addPermit s.permits, holder := none }
      (.raising .notifying) (d.raise s.permits)
  | notify : Turn m s d (.raising .notifying) (s.notifyOne m.pick) .idle d
  | arrive (bound : WaitBound) (since : Option Instant) :
      Turn m s d (.waiting bound since .arriving) s
        (.waiting bound (since.getD m.now) (.locking (bound.deadline m.now) .arrival)) d
  | lockWait (bound : WaitBound) (since deadline : Option Instant) (cause : Cause) :
      s.holder = none →
      Turn m s d (.waiting bound since (.locking deadline cause)) { s with holder := some m.self }
        (.waiting bound (since.getD m.now) (.looking deadline cause)) d
  | take (bound : WaitBound) (since deadline : Option Instant) (cause : Cause) : 0 < s.permits →
      Turn m s d (.waiting bound since (.looking deadline cause))
        { s with permits := s.permits - 1, holder := none } .idle (d.wait true)
  | miss (bound : WaitBound) (since deadline : Option Instant) : s.permits = 0 →
      Turn m s d (.waiting bound since (.looking deadline .expiry)) { s with holder := none } .idle
        (d.wait false)
  | park (bound : WaitBound) (since deadline : Option Instant) (cause : Cause) : s.permits = 0 →
      cause ≠ .expiry →
      Turn m s d (.waiting bound since (.looking deadline cause))
        { s with holder := none, parked := s.parked ++ [m.self] }
        (.waiting bound (since.getD m.now) (.parked deadline)) d
  | notice (bound : WaitBound) (since deadline : Option Instant) : m.self ∈ s.notified →
      Turn m s d (.waiting bound since (.parked deadline))
        { s with notified := s.notified.erase m.self }
        (.waiting bound (since.getD m.now) (.locking deadline .notification)) d
  | expire (bound : WaitBound) (since deadline : Option Instant) : m.self ∉ s.notified →
      deadline.any (· ≤ m.now) →
      Turn m s d (.waiting bound since (.parked deadline))
        { s with parked := s.parked.erase m.self }
        (.waiting bound (since.getD m.now) (.locking deadline .expiry)) d
  | stray (bound : WaitBound) (since deadline : Option Instant) : m.self ∉ s.notified → m.stray →
      Turn m s d (.waiting bound since (.parked deadline))
        { s with parked := s.parked.erase m.self }
        (.waiting bound (since.getD m.now) (.locking deadline .stray)) d
  | lockReset : s.holder = none →
      Turn m s d (.resetting .locking) { s with holder := some m.self } (.resetting .holding) d
  | clear : Turn m s d (.resetting .holding) { s with permits := 0, holder := none } .idle
      (d.reset s.permits)
  | lockAsk : s.holder = none →
      Turn m s d (.asking .locking) { s with holder := some m.self } (.asking .holding) d
  | ask : Turn m s d (.asking .holding) { s with holder := none } .idle d

theorem Scene.step_cases {s t : Scene} {m : Moment} {stand : Stand}
    (h : s.step m stand = some t) :
    ∃ signal stand' deeds, Turn m s.signal s.deeds stand signal stand' deeds ∧
      t = { s.put m.self signal stand' with deeds } := by
  cases stand with
  | idle => simp [step] at h
  | raising pc =>
    simp only [step] at h
    cases hr : raiseStep m s.signal pc with
    | blocked => simp [hr] at h
    | going signal pc' =>
      simp only [hr, Option.some.injEq] at h
      subst h
      cases raiseStep_cases hr nofun with
      | lock hh => exact ⟨_, _, _, .lockRaise hh, rfl⟩
      | add => exact ⟨_, _, _, .add, rfl⟩
    | finished signal u =>
      simp only [hr, Option.some.injEq] at h
      subst h
      cases raiseStep_cases hr nofun with
      | notify => exact ⟨_, _, _, .notify, rfl⟩
  | waiting bound since pc =>
    simp only [step] at h
    cases hw : waitStep bound m s.signal pc with
    | blocked => simp [hw] at h
    | going signal pc' =>
      simp only [hw, Option.some.injEq] at h
      subst h
      cases waitStep_cases hw nofun with
      | arrive => exact ⟨_, _, _, .arrive bound since, rfl⟩
      | lock deadline cause hh => exact ⟨_, _, _, .lockWait bound since deadline cause hh, rfl⟩
      | park deadline cause hn hc => exact ⟨_, _, _, .park bound since deadline cause hn hc, rfl⟩
      | notice deadline hm => exact ⟨_, _, _, .notice bound since deadline hm, rfl⟩
      | expire deadline hm hd => exact ⟨_, _, _, .expire bound since deadline hm hd, rfl⟩
      | stray deadline hm hd hs => exact ⟨_, _, _, .stray bound since deadline hm hs, rfl⟩
    | finished signal woke =>
      simp only [hw, Option.some.injEq] at h
      subst h
      cases waitStep_cases hw nofun with
      | take deadline cause hn => exact ⟨_, _, _, .take bound since deadline cause hn, rfl⟩
      | miss deadline hn => exact ⟨_, _, _, .miss bound since deadline hn, rfl⟩
  | resetting pc =>
    cases pc with
    | locking =>
      cases hh : s.signal.holder with
      | none =>
        simp only [step, accessStep, hh, Option.isSome_none, Bool.false_eq_true, if_false,
          Option.some.injEq] at h
        exact ⟨_, _, _, .lockReset hh, h.symm⟩
      | some u => simp [step, accessStep, hh] at h
    | holding => exact ⟨_, _, _, .clear, (Option.some.inj h).symm⟩
  | asking pc =>
    cases pc with
    | locking =>
      cases hh : s.signal.holder with
      | none =>
        simp only [step, accessStep, hh, Option.isSome_none, Bool.false_eq_true, if_false,
          Option.some.injEq] at h
        exact ⟨_, _, _, .lockAsk hh, h.symm⟩
      | some u => simp [step, accessStep, hh] at h
    | holding => exact ⟨_, _, _, .ask, (Option.some.inj h).symm⟩

namespace Turn

variable {m : Moment} {s s' : Signal} {d d' : Deeds} {x x' : Stand}

theorem locked (h : Turn m s d x s' x' d') (hh : x.holds.toNat ≤ s.holder.isSome.toNat) :
    x'.holds.toNat + s.holder.isSome.toNat = x.holds.toNat + s'.holder.isSome.toNat := by
  cases h with
  | lockRaise h | lockReset h | lockAsk h => simp [Stand.holds, h]
  | lockWait bound since deadline cause h => simp [Stand.holds, h]
  | notify => simp [Stand.holds]
  | arrive | notice | expire | stray => rfl
  | _ =>
    simp only [Stand.holds, Bool.toNat_true, Bool.toNat_false] at hh ⊢
    have hle := Bool.toNat_le s.holder.isSome
    simp only [Option.isSome_none, Bool.toNat_false]
    omega

theorem permits_le (h : Turn m s d x s' x' d') (hs : s.permits ≤ capacity) :
    s'.permits ≤ capacity := by
  cases h with
  | add => exact Nat.min_le_right _ _
  | notify => rwa [notifyOne_permits]
  | take => exact Nat.le_trans (Nat.sub_le _ _) hs
  | clear => exact Nat.zero_le _
  | _ => exact hs

/-- Every permit that was raised is there, was taken or was dropped. -/
theorem ledger (h : Turn m s d x s' x' d') (hs : s.permits ≤ capacity)
    (hd : s.permits + d.taken + d.cleared = d.raised) :
    s'.permits + d'.taken + d'.cleared = d'.raised := by
  cases h with
  | add =>
    unfold Deeds.raise addPermit
    split
    · show min (s.permits + 1) capacity + d.taken + d.cleared = d.raised + 1
      omega
    · show min (s.permits + 1) capacity + d.taken + d.cleared = d.raised
      omega
  | notify => rwa [notifyOne_permits]
  | take bound since deadline cause hn =>
    show s.permits - 1 + (d.taken + 1) + d.cleared = d.raised
    omega
  | clear =>
    show 0 + d.taken + (d.cleared + s.permits) = d.raised
    omega
  | _ => exact hd

/-- Every raise has left a permit, found the count full or not come to it. -/
theorem raises (h : Turn m s d x s' x' d') :
    d'.raised + d'.lost + x'.isRaising.toNat = d.raised + d.lost + x.isRaising.toNat := by
  cases h with
  | add =>
    unfold Deeds.raise
    split <;> simp only [Stand.isRaising, Bool.toNat_true, Bool.toNat_false] <;> omega
  | _ => rfl

theorem lost (h : Turn m s d x s' x' d') :
    d'.lost = d.lost ∨ capacity ≤ s.permits ∧ x.isRaising := by
  cases h with
  | add =>
    unfold Deeds.raise
    split
    · exact .inl rfl
    · next hc => exact .inr ⟨Nat.le_of_not_lt hc, rfl⟩
  | _ => exact .inl rfl

/-- Every wait has ended, with a permit or without one, or goes on. -/
theorem waits (h : Turn m s d x s' x' d') :
    d'.taken + d'.missed + x'.isWaiting.toNat = d.taken + d.missed + x.isWaiting.toNat := by
  cases h with
  | add =>
    unfold Deeds.raise
    split <;> rfl
  | take | miss =>
    simp only [Deeds.wait, Stand.isWaiting, Bool.toNat_true, Bool.toNat_false, if_true,
      Bool.false_eq_true, if_false]
    omega
  | _ => rfl

theorem cleared (h : Turn m s d x s' x' d') :
    d'.cleared = d.cleared ∨ x.operation = some .reset := by
  cases h with
  | add =>
    unfold Deeds.raise
    split <;> exact .inl rfl
  | clear => exact .inr rfl
  | _ => exact .inl rfl

theorem begun (h : Turn m s d x s' x' d') : d'.begun = d.begun := by
  cases h with
  | add =>
    unfold Deeds.raise
    split <;> rfl
  | _ => rfl

theorem operation (h : Turn m s d x s' x' d') : x'.operation = x.operation ∨ x' = .idle := by
  cases h with
  | notify | take | miss | clear | ask => exact .inr rfl
  | _ => exact .inl rfl

theorem isPatient (h : Turn m s d x s' x' d') (hx : x.isPatient) : x'.isPatient := by
  cases h with
  | arrive bound since => cases bound <;> rfl
  | lockWait bound since deadline cause h => cases bound <;> exact hx
  | park bound since deadline cause hn hc =>
    cases bound with
    | infinite => exact (Bool.and_eq_true_iff.mp hx).1
    | within span => rfl
  | notice bound since deadline hm =>
    cases bound with
    | infinite => exact Bool.and_eq_true_iff.mpr ⟨hx, rfl⟩
    | within span => rfl
  | expire bound since deadline hm hd =>
    cases bound with
    | infinite =>
      obtain rfl : deadline = none := of_decide_eq_true hx
      cases hd
    | within span => rfl
  | stray bound since deadline hm hs =>
    cases bound with
    | infinite => exact Bool.and_eq_true_iff.mpr ⟨hx, rfl⟩
    | within span => rfl
  | _ => rfl

theorem missed (h : Turn m s d x s' x' d') (hx : x.isPatient) :
    d'.missed = d.missed ∨ ∃ bound, bound ≠ .infinite ∧ x.operation = some (.wait bound) := by
  cases h with
  | add =>
    unfold Deeds.raise
    split <;> exact .inl rfl
  | miss bound since deadline hn =>
    refine .inr ⟨bound, ?_, rfl⟩
    rintro rfl
    simp [Stand.isPatient] at hx
  | _ => exact .inl rfl

/-- Who falls asleep and who wakes. A thread wakes only out of the parked or the notified. -/
theorem sleepers (h : Turn m s d x s' x' d') (hm : x.isAsleep → m.self ∈ s.sleepers) :
    x'.isAsleep = x.isAsleep ∧ s'.sleepers.Perm s.sleepers ∨
      ¬ x.isAsleep ∧ x'.isAsleep ∧ s'.sleepers.Perm (m.self :: s.sleepers) ∨
      x.isAsleep ∧ ¬ x'.isAsleep ∧ s.sleepers.Perm (m.self :: s'.sleepers) := by
  cases h with
  | notify =>
    -- A notified thread goes from one list to the other and sleeps on.
    refine .inl ⟨rfl, ?_⟩
    rcases s.notifyOne_cases m.pick with ⟨-, hs⟩ | ⟨t, ht, hs⟩
    · rw [hs]
    · rw [hs]
      show (s.parked.erase t ++ (s.notified ++ [t])).Perm (s.parked ++ s.notified)
      have hperm : (s.notified ++ [t]).Perm (t :: s.notified) := List.perm_append_singleton _ _
      refine (hperm.append_left _).trans ?_
      refine List.perm_middle.trans ?_
      exact (List.perm_cons_erase ht).symm.append_right s.notified
  | park bound since deadline cause hn hc =>
    refine .inr (.inl ⟨nofun, rfl, ?_⟩)
    show (s.parked ++ [m.self] ++ s.notified).Perm (m.self :: (s.parked ++ s.notified))
    rw [List.append_assoc]
    exact List.perm_middle
  | notice bound since deadline hn =>
    refine .inr (.inr ⟨rfl, nofun, ?_⟩)
    show (s.parked ++ s.notified).Perm (m.self :: (s.parked ++ s.notified.erase m.self))
    exact ((List.perm_cons_erase hn).append_left _).trans List.perm_middle
  | expire bound since deadline hn hd =>
    have hp : m.self ∈ s.parked := (List.mem_append.mp (hm rfl)).resolve_right hn
    exact .inr (.inr ⟨rfl, nofun, (List.perm_cons_erase hp).append_right s.notified⟩)
  | stray bound since deadline hn hs =>
    have hp : m.self ∈ s.parked := (List.mem_append.mp (hm rfl)).resolve_right hn
    exact .inr (.inr ⟨rfl, nofun, (List.perm_cons_erase hp).append_right s.notified⟩)
  | _ => exact .inl ⟨rfl, .rfl⟩

/-- While a thread is parked, the permits grow only with the notifications under way, and these
get fewer only with the permits. -/
theorem bounded (h : Turn m s d x s' x' d') (hs : s'.parked ≠ []) :
    s'.permits = 0 ∨ s.parked ≠ [] ∧
      s'.permits + x.hasAdded.toNat + s.notified.length + x.isWoken.toNat ≤
        s.permits + x'.hasAdded.toNat + s'.notified.length + x'.isWoken.toNat := by
  cases h with
  | add =>
    -- A permit more at most, and a raiser more who has yet to notify.
    refine .inr ⟨hs, ?_⟩
    simp only [addPermit, Stand.hasAdded, Stand.isWoken, Bool.toNat_true, Bool.toNat_false]
    omega
  | notify =>
    rcases s.notifyOne_cases m.pick with ⟨hp, he⟩ | ⟨t, ht, he⟩
    · rw [he] at hs
      exact absurd hp hs
    · -- The notification goes from the raiser over to the thread that it reaches.
      refine .inr ⟨List.ne_nil_of_mem ht, ?_⟩
      rw [he]
      simp only [Stand.hasAdded, Stand.isWoken, Bool.toNat_true, Bool.toNat_false,
        List.length_append, List.length_singleton]
      omega
  | arrive bound since => exact .inr ⟨hs, Nat.le_refl _⟩
  | lockWait bound since deadline cause hh =>
    refine .inr ⟨hs, ?_⟩
    cases cause <;> exact Nat.le_refl _
  | take bound since deadline cause hn =>
    -- Whoever takes the permit, woken for it or not, makes one less of it.
    refine .inr ⟨hs, ?_⟩
    have hle := Bool.toNat_le (Stand.waiting bound since (.looking deadline cause)).isWoken
    simp only [Stand.hasAdded, Bool.toNat_false] at hle ⊢
    show s.permits - 1 + 0 + s.notified.length + _ ≤ s.permits + 0 + s.notified.length + 0
    omega
  | miss bound since deadline hn => exact .inl hn
  | park bound since deadline cause hn hc => exact .inl hn
  | notice bound since deadline hm =>
    refine .inr ⟨hs, ?_⟩
    simp only [Stand.hasAdded, Stand.isWoken, Bool.toNat_true, Bool.toNat_false,
      List.length_erase_of_mem hm]
    have hpos := List.length_pos_of_mem hm
    omega
  | expire bound since deadline hm hd =>
    exact .inr ⟨fun hp => hs (by simp [hp]), Nat.le_refl _⟩
  | stray bound since deadline hm hd =>
    exact .inr ⟨fun hp => hs (by simp [hp]), Nat.le_refl _⟩
  | lockRaise | lockReset | lockAsk | ask => exact .inr ⟨hs, Nat.le_refl _⟩
  | clear => exact .inl rfl

end Turn
end CrossCall.Signal
