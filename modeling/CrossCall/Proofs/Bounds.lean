import CrossCall.WaitBound

/-! When a wait with a bound runs out: at one moment that is told when it begins, or never. -/

namespace CrossCall

/-- A wait with this bound that began at `since` runs out, and has by now. -/
def WaitBound.IsDue (bound : WaitBound) (since now : Instant) : Prop :=
  ∃ deadline, bound.deadline since = some deadline ∧ deadline ≤ now

namespace WaitBound

variable {bound : WaitBound} {since now later : Instant}

theorem not_isDue_infinite : ¬ WaitBound.infinite.IsDue since now := nofun

theorem IsDue.mono (h : bound.IsDue since now) (hle : now ≤ later) : bound.IsDue since later := by
  obtain ⟨deadline, hd, hdue⟩ := h
  exact ⟨deadline, hd, Nat.le_trans hdue hle⟩

theorem isDue_of_any (h : (bound.deadline since).any (· ≤ now)) : bound.IsDue since now := by
  obtain ⟨deadline, hd, hdue⟩ := (Option.any_eq_true _ _).mp h
  exact ⟨deadline, hd, of_decide_eq_true hdue⟩

theorem IsDue.any (h : bound.IsDue since now) : (bound.deadline since).any (· ≤ now) := by
  obtain ⟨deadline, hd, hdue⟩ := h
  exact (Option.any_eq_true _ _).mpr ⟨deadline, hd, decide_eq_true hdue⟩

/-- A wait that has run out had a finite bound, and the clock could tell when it runs out. -/
theorem IsDue.within (h : bound.IsDue since now) :
    ∃ span, bound = .within span ∧ since + span.nanos < Instant.limit ∧
      since + span.nanos ≤ now := by
  obtain ⟨instant, hd, hdue⟩ := h
  cases bound with
  | infinite => cases hd
  | within span =>
    simp only [deadline, Option.ite_none_right_eq_some, Option.some.injEq] at hd
    obtain ⟨hlt, rfl⟩ := hd
    exact ⟨span, rfl, hlt, hdue⟩

end WaitBound
end CrossCall
