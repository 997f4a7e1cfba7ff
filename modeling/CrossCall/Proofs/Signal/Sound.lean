import CrossCall.Proofs.Signal.Turn

/-! What is true of a signal however threads take turns: the books on permits, raises and waits are
balanced, who sleeps is known to the signal, and while a thread is parked there are no more permits
than notifications under way. -/

namespace CrossCall

theorem countP_set {α : Type} (P : α → Bool) {l : List α} {i : Nat} {a : α} (h : l[i]? = some a)
    (b : α) : (l.set i b).countP P + (P a).toNat = l.countP P + (P b).toNat := by
  obtain ⟨before, after, hl, hset, -⟩ := exists_sides h
  rw [hset, countP_sides, hl, countP_sides]
  omega

end CrossCall

namespace CrossCall.Signal

def Operation.isWait : Operation → Bool
  | .wait _ => true
  | _ => false

structure Scene.Sound (s : Scene) : Prop where
  locked : s.threads.countP Stand.holds = s.signal.holder.isSome.toNat
  permits_le : s.signal.permits ≤ capacity
  ledger : s.signal.permits + s.deeds.taken + s.deeds.cleared = s.deeds.raised
  raises : s.deeds.raised + s.deeds.lost + s.threads.countP Stand.isRaising =
    s.deeds.begun.count .raise
  waits : s.deeds.taken + s.deeds.missed + s.threads.countP Stand.isWaiting =
    s.deeds.begun.countP Operation.isWait
  distinct : s.signal.sleepers.Nodup
  asleep : ∀ t, t ∈ s.signal.sleepers ↔ ∃ stand, s.threads[t]? = some stand ∧ stand.isAsleep
  bounded : s.signal.parked ≠ [] → s.signal.permits ≤
    s.threads.countP Stand.hasAdded + s.signal.notified.length + s.threads.countP Stand.isWoken
  begun : ∀ stand ∈ s.threads, ∀ operation, stand.operation = some operation →
    operation ∈ s.deeds.begun
  patient : ∀ stand ∈ s.threads, stand.isPatient
  lost : s.deeds.lost = 0 ∨ capacity < s.deeds.begun.count .raise
  cleared : s.deeds.cleared = 0 ∨ .reset ∈ s.deeds.begun
  missed : s.deeds.missed = 0 ∨ ∃ bound, bound ≠ .infinite ∧ .wait bound ∈ s.deeds.begun

namespace Scene

variable {s t : Scene} {signal : Signal} {deeds : Deeds} {x x' : Stand} {m : Moment}

theorem sound_of_isStart (h : s.isStart) : s.Sound := by
  obtain ⟨hs, hd, hidle⟩ := h
  have hnone (P : Stand → Bool) (hP : P .idle = false) : s.threads.countP P = 0 := by
    rw [List.countP_eq_zero]
    intro stand hm
    rw [hidle stand hm, hP]
    exact Bool.false_ne_true
  constructor
  case locked =>
    rw [hnone _ rfl, hs]
    rfl
  case permits_le =>
    rw [hs]
    exact Nat.zero_le _
  case ledger =>
    rw [hs, hd]
    rfl
  case raises =>
    rw [hnone _ rfl, hd]
    rfl
  case waits =>
    rw [hnone _ rfl, hd]
    rfl
  case distinct =>
    rw [hs]
    exact .nil
  case asleep =>
    intro t
    rw [hs]
    refine ⟨fun h => (List.not_mem_nil h).elim, ?_⟩
    rintro ⟨stand, ht, ha⟩
    rw [hidle stand (List.mem_of_getElem? ht)] at ha
    cases ha
  case bounded =>
    rw [hs]
    exact fun h => absurd rfl h
  case begun =>
    intro stand hm op ho
    rw [hidle stand hm] at ho
    cases ho
  case patient =>
    intro stand hm
    rw [hidle stand hm]
    rfl
  case lost => exact .inl (by rw [hd])
  case cleared => exact .inl (by rw [hd])
  case missed => exact .inl (by rw [hd])

/-- A thread that begins an operation makes no difference but to the list of what was begun. -/
theorem Sound.begin (h : s.Sound) {t : ThreadId} (ht : s.threads[t]? = some .idle)
    (operation : Operation) :
    Sound { s with
      threads := s.threads.set t operation.stand
      deeds := { s.deeds with begun := operation :: s.deeds.begun } } := by
  have hcount (P : Stand → Bool) :
      (s.threads.set t operation.stand).countP P + (P .idle).toNat =
        s.threads.countP P + (P operation.stand).toNat := countP_set P ht operation.stand
  have hquiet (P : Stand → Bool) (hi : P .idle = false) (ho : P operation.stand = false) :
      (s.threads.set t operation.stand).countP P = s.threads.countP P := by
    have hP := hcount P
    rwa [hi, ho] at hP
  constructor
  case locked =>
    show (s.threads.set t operation.stand).countP Stand.holds = _
    rw [hquiet _ rfl (by cases operation <;> rfl), h.locked]
  case permits_le => exact h.permits_le
  case ledger => exact h.ledger
  case raises =>
    show s.deeds.raised + s.deeds.lost + (s.threads.set t operation.stand).countP Stand.isRaising =
      (operation :: s.deeds.begun).count .raise
    have hP := hcount Stand.isRaising
    have hraises := h.raises
    rw [List.count_cons]
    cases operation <;> simp [Operation.stand, Stand.isRaising] at hP ⊢ <;> omega
  case waits =>
    show s.deeds.taken + s.deeds.missed + (s.threads.set t operation.stand).countP Stand.isWaiting =
      (operation :: s.deeds.begun).countP Operation.isWait
    have hP := hcount Stand.isWaiting
    have hwaits := h.waits
    rw [List.countP_cons]
    cases operation <;>
      simp [Operation.stand, Operation.isWait, Stand.isWaiting] at hP ⊢ <;> omega
  case distinct => exact h.distinct
  case asleep =>
    intro u
    rw [h.asleep]
    by_cases hu : t = u
    · subst hu
      rw [ht, List.getElem?_set_self (List.getElem?_eq_some_iff.mp ht).1]
      cases operation <;> simp [Operation.stand, Stand.isAsleep]
    · rw [List.getElem?_set_ne hu]
  case bounded =>
    intro hp
    show s.signal.permits ≤ (s.threads.set t operation.stand).countP Stand.hasAdded + _ +
      (s.threads.set t operation.stand).countP Stand.isWoken
    rw [hquiet _ rfl (by cases operation <;> rfl), hquiet _ rfl (by cases operation <;> rfl)]
    exact h.bounded hp
  case begun =>
    intro stand hm op ho
    rcases List.mem_or_eq_of_mem_set hm with hm | rfl
    · exact .tail _ (h.begun stand hm op ho)
    · cases operation <;> cases ho <;> exact .head _
  case patient =>
    intro stand hm
    rcases List.mem_or_eq_of_mem_set hm with hm | rfl
    · exact h.patient stand hm
    · cases operation with
      | wait bound => cases bound <;> rfl
      | _ => rfl
  case lost => exact h.lost.imp id fun hc => Nat.lt_of_lt_of_le hc List.count_le_count_cons
  case cleared => exact h.cleared.imp id (.tail _)
  case missed =>
    rcases h.missed with h0 | ⟨bound, hb, hm⟩
    · exact .inl h0
    · exact .inr ⟨bound, hb, .tail _ hm⟩

theorem Sound.asleep_turn (h : s.Sound) (hx : s.threads[m.self]? = some x)
    (ht : Turn m s.signal s.deeds x signal x' deeds) :
    signal.sleepers.Nodup ∧ ∀ t, t ∈ signal.sleepers ↔
      ∃ stand, (s.threads.set m.self x')[t]? = some stand ∧ stand.isAsleep := by
  have hself : m.self ∈ s.signal.sleepers ↔ x.isAsleep := by
    rw [h.asleep, hx]
    simp
  have hnew : (∃ stand, (s.threads.set m.self x')[m.self]? = some stand ∧ stand.isAsleep) ↔
      x'.isAsleep := by
    rw [List.getElem?_set_self (List.getElem?_eq_some_iff.mp hx).1]
    simp
  have hother (t : ThreadId) (hne : t ≠ m.self) : t ∈ s.signal.sleepers ↔
      ∃ stand, (s.threads.set m.self x')[t]? = some stand ∧ stand.isAsleep := by
    rw [h.asleep, List.getElem?_set_ne (Ne.symm hne)]
  rcases ht.sleepers hself.mpr with ⟨heq, hperm⟩ | ⟨hx, hx', hperm⟩ | ⟨hx, hx', hperm⟩
  · refine ⟨hperm.nodup_iff.mpr h.distinct, fun t => ?_⟩
    by_cases he : t = m.self
    · rw [he, hnew, heq, hperm.mem_iff, hself]
    · rw [← hother t he, hperm.mem_iff]
  · refine ⟨hperm.nodup_iff.mpr (List.nodup_cons.mpr ⟨mt hself.mp hx, h.distinct⟩), fun t => ?_⟩
    by_cases he : t = m.self
    · rw [he, hnew, hperm.mem_iff]
      simp [hx']
    · rw [← hother t he, hperm.mem_iff, List.mem_cons]
      exact or_iff_right he
  · obtain ⟨hmem, hnodup⟩ := List.nodup_cons.mp (hperm.nodup_iff.mp h.distinct)
    refine ⟨hnodup, fun t => ?_⟩
    by_cases he : t = m.self
    · rw [he, hnew]
      exact iff_of_false hmem hx'
    · rw [← hother t he, hperm.mem_iff, List.mem_cons]
      exact (or_iff_right he).symm

theorem Sound.turn (h : s.Sound) (hx : s.threads[m.self]? = some x)
    (ht : Turn m s.signal s.deeds x signal x' deeds) :
    Sound { s.put m.self signal x' with deeds } := by
  have hcount (P : Stand → Bool) :
      (s.threads.set m.self x').countP P + (P x).toNat = s.threads.countP P + (P x').toNat :=
    countP_set P hx x'
  have hmem : x ∈ s.threads := List.mem_of_getElem? hx
  have hle (P : Stand → Bool) (hP : P x) : 0 < s.threads.countP P :=
    List.countP_pos_iff.mpr ⟨x, hmem, hP⟩
  have hbegun : deeds.begun = s.deeds.begun := ht.begun
  obtain ⟨hdistinct, hasleep⟩ := h.asleep_turn hx ht
  constructor
  case locked =>
    show (s.threads.set m.self x').countP Stand.holds = signal.holder.isSome.toNat
    have hP := hcount Stand.holds
    have hlocked := h.locked
    have hxle : x.holds.toNat ≤ s.signal.holder.isSome.toNat := by
      rw [← hlocked]
      cases hh : x.holds with
      | false => exact Nat.zero_le _
      | true => exact hle _ hh
    have hl := ht.locked hxle
    omega
  case permits_le => exact ht.permits_le h.permits_le
  case ledger => exact ht.ledger h.permits_le h.ledger
  case raises =>
    show deeds.raised + deeds.lost + (s.threads.set m.self x').countP Stand.isRaising = _
    rw [hbegun, ← h.raises]
    have hP := hcount Stand.isRaising
    have hr := ht.raises
    omega
  case waits =>
    show deeds.taken + deeds.missed + (s.threads.set m.self x').countP Stand.isWaiting = _
    rw [hbegun, ← h.waits]
    have hP := hcount Stand.isWaiting
    have hw := ht.waits
    omega
  case distinct => exact hdistinct
  case asleep => exact hasleep
  case bounded =>
    intro hp
    show signal.permits ≤ (s.threads.set m.self x').countP Stand.hasAdded +
      signal.notified.length + (s.threads.set m.self x').countP Stand.isWoken
    rcases ht.bounded hp with h0 | ⟨hparked, hb⟩
    · rw [h0]
      exact Nat.zero_le _
    · have hbound := h.bounded hparked
      have hadded := hcount Stand.hasAdded
      have hwoken := hcount Stand.isWoken
      omega
  case begun =>
    intro stand hm op ho
    show op ∈ deeds.begun
    rw [hbegun]
    rcases List.mem_or_eq_of_mem_set hm with hm | rfl
    · exact h.begun stand hm op ho
    · rcases ht.operation with he | he
      · exact h.begun x hmem op (he ▸ ho)
      · rw [he] at ho
        cases ho
  case patient =>
    intro stand hm
    rcases List.mem_or_eq_of_mem_set hm with hm | rfl
    · exact h.patient stand hm
    · exact ht.isPatient (h.patient x hmem)
  case lost =>
    show deeds.lost = 0 ∨ capacity < deeds.begun.count .raise
    rw [hbegun]
    rcases ht.lost with he | ⟨hfull, hr⟩
    · rw [he]
      exact h.lost
    · -- The permits that fill the count are those of raises, and this raise is one more.
      have hpos := hle _ hr
      have hraises := h.raises
      have hledger := h.ledger
      exact .inr (by omega)
  case cleared =>
    show deeds.cleared = 0 ∨ .reset ∈ deeds.begun
    rw [hbegun]
    rcases ht.cleared with he | ho
    · rw [he]
      exact h.cleared
    · exact .inr (h.begun x hmem _ ho)
  case missed =>
    show deeds.missed = 0 ∨ ∃ bound, bound ≠ .infinite ∧ .wait bound ∈ deeds.begun
    rw [hbegun]
    rcases ht.missed (h.patient x hmem) with he | ⟨bound, hb, ho⟩
    · rw [he]
      exact h.missed
    · exact .inr ⟨bound, hb, h.begun x hmem _ ho⟩

theorem Sound.move {move : Move} (h : s.Sound) (ht : s.move move = some t) : t.Sound := by
  cases move with
  | begin thread operation =>
    simp only [Scene.move] at ht
    split at ht
    · next hidle =>
      obtain rfl := Option.some.inj ht
      exact h.begin hidle operation
    · cases ht
  | step thread stray pick =>
    obtain ⟨x, hx, hs⟩ := Option.bind_eq_some_iff.mp ht
    obtain ⟨signal, x', deeds, hturn, rfl⟩ := step_cases hs
    exact h.turn hx hturn
  | tick later =>
    obtain rfl := Option.some.inj ht
    exact ⟨h.locked, h.permits_le, h.ledger, h.raises, h.waits, h.distinct, h.asleep, h.bounded,
      h.begun, h.patient, h.lost, h.cleared, h.missed⟩

theorem Reachable.sound (h : s.Reachable) : s.Sound :=
  CrossCall.Reachable.keeps (fun _ _ _ hs hm => hs.move hm) h fun _ hs => sound_of_isStart hs

end Scene
end CrossCall.Signal
