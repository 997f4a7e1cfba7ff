import CrossCall.Proofs.Runs
import CrossCall.Worker.Scene

/-! A turn of one thread at a worker, and what a move of the scene comes to: a thread, or the item
that runs, begins an operation or takes a turn in one, or the worker's own thread goes on. Items are
let in, and the worker is closed, only by who holds the lock of the entrance. -/

namespace CrossCall.Worker

variable {ι : Type}

namespace Stand

def holds : Stand ι → Bool
  | .enqueuing _ .locking => false
  | .enqueuing _ _ | .closing .holding | .looking .holding => true
  | _ => false

/-- In an enqueue that found the worker open. -/
def isLetIn : Stand ι → Bool
  | .enqueuing _ .sending | .enqueuing _ .rollingBack | .enqueuing _ .releasing => true
  | _ => false

/-- The item that a thread hands in, as long as it is neither accepted nor refused. -/
def item? : Stand ι → Option ι
  | .enqueuing _ .releasing => none
  | .enqueuing item _ => some item
  | _ => none

theorem holds_of_isLetIn {stand : Stand ι} (h : stand.isLetIn) : stand.holds := by
  unfold isLetIn at h
  split at h <;> first | rfl | cases h

end Stand

inductive Turn (m : Moment) (w : Worker ι) (d : Deeds ι) :
    Stand ι → Worker ι → Stand ι → Deeds ι → Prop where
  | lockEnqueue (item : ι) : w.entrance = none →
      Turn m w d (.enqueuing item .locking) { w with entrance := some m.self }
        (.enqueuing item .checking) d
  | letIn (item : ι) : w.isOpen = true →
      Turn m w d (.enqueuing item .checking) { w with pending := w.pending + 1 }
        (.enqueuing item .sending) d
  | refuse (item : ι) : w.isOpen = false →
      Turn m w d (.enqueuing item .checking) { w with entrance := none } .idle
        { d with refused := d.refused ++ [item] }
  | fail (item : ι) : w.ended = true →
      Turn m w d (.enqueuing item .sending) w (.enqueuing item .rollingBack) d
  | send (item : ι) : w.ended = false →
      Turn m w d (.enqueuing item .sending) { w with items := w.items ++ [item] }
        (.enqueuing item .releasing) { d with accepted := d.accepted ++ [item] }
  | rollBack (item : ι) :
      Turn m w d (.enqueuing item .rollingBack)
        { w with pending := w.pending - 1, entrance := none } .idle
        { d with refused := d.refused ++ [item] }
  | release (item : ι) :
      Turn m w d (.enqueuing item .releasing) { w with entrance := none } .idle d
  | lockClose : w.entrance = none →
      Turn m w d (.closing .locking) { w with entrance := some m.self } (.closing .holding) d
  | close :
      Turn m w d (.closing .holding) { w with isOpen := false, entrance := none }
        (if m.self = w.thread then .idle else .joining .locking) d
  | lockJoin : w.joinHolder = none →
      Turn m w d (.joining .locking) { w with joinHolder := some m.self } (.joining .taking) d
  | takeJoin : w.joinable = true →
      Turn m w d (.joining .taking) { w with joinable := false, joinHolder := none }
        (.joining .joining) d
  | leaveJoin : w.joinable = false →
      Turn m w d (.joining .taking) { w with joinHolder := none } .idle d
  | join : w.ended = true → Turn m w d (.joining .joining) w .idle d
  | lockLook : w.entrance = none →
      Turn m w d (.looking .locking) { w with entrance := some m.self } (.looking .holding) d
  | look : Turn m w d (.looking .holding) { w with entrance := none } .idle d
  | readPending : Turn m w d (.reading .pending) w (.reading (.executed w.pending)) d
  | readExecuted (p : UInt64) :
      Turn m w d (.reading (.executed p)) w (.reading (.panicked p w.executed)) d
  | readPanicked (p e : UInt64) : Turn m w d (.reading (.panicked p e)) w .idle d

section Steps

variable {m : Moment} {w w' : Worker ι} {d d' : Deeds ι} {x x' : Stand ι}

theorem Scene.enqueuing_cases {item : ι} {pc : EnqueuePc}
    (h : stepStand m w d (.enqueuing item pc) = some (w', x', d')) :
    Turn m w d (.enqueuing item pc) w' x' d' := by
  cases pc with
  | locking =>
    cases he : w.entrance with
    | none =>
      simp only [stepStand, enqueueStep, he, Option.isSome_none, Bool.false_eq_true, if_false,
        Option.some.injEq, Prod.mk.injEq] at h
      obtain ⟨rfl, rfl, rfl⟩ := h
      exact .lockEnqueue item he
    | some u => simp [stepStand, enqueueStep, he] at h
  | checking =>
    by_cases ho : w.isOpen = true
    · simp only [stepStand, enqueueStep, if_pos ho, Option.some.injEq, Prod.mk.injEq] at h
      obtain ⟨rfl, rfl, rfl⟩ := h
      exact .letIn item ho
    · simp only [stepStand, enqueueStep, if_neg ho, Option.some.injEq, Prod.mk.injEq] at h
      obtain ⟨rfl, rfl, rfl⟩ := h
      exact .refuse item (Bool.eq_false_iff.mpr ho)
  | sending =>
    by_cases he : w.ended = true
    · simp only [stepStand, enqueueStep, if_pos he, Option.some.injEq, Prod.mk.injEq] at h
      obtain ⟨rfl, rfl, rfl⟩ := h
      exact .fail item he
    · simp only [stepStand, enqueueStep, if_neg he, Option.some.injEq, Prod.mk.injEq] at h
      obtain ⟨rfl, rfl, rfl⟩ := h
      exact .send item (Bool.eq_false_iff.mpr he)
  | rollingBack =>
    simp only [stepStand, enqueueStep, Option.some.injEq, Prod.mk.injEq] at h
    obtain ⟨rfl, rfl, rfl⟩ := h
    exact .rollBack item
  | releasing =>
    simp only [stepStand, enqueueStep, Option.some.injEq, Prod.mk.injEq] at h
    obtain ⟨rfl, rfl, rfl⟩ := h
    exact .release item

theorem Scene.joining_cases {pc : JoinPc} (h : stepStand m w d (.joining pc) = some (w', x', d')) :
    Turn m w d (.joining pc) w' x' d' := by
  cases pc with
  | locking =>
    cases hj : w.joinHolder with
    | none =>
      simp only [stepStand, joinStep, hj, Option.isSome_none, Bool.false_eq_true, if_false,
        Option.some.injEq, Prod.mk.injEq] at h
      obtain ⟨rfl, rfl, rfl⟩ := h
      exact .lockJoin hj
    | some u => simp [stepStand, joinStep, hj] at h
  | taking =>
    by_cases hj : w.joinable = true
    · simp only [stepStand, joinStep, if_pos hj, Option.some.injEq, Prod.mk.injEq] at h
      obtain ⟨rfl, rfl, rfl⟩ := h
      exact .takeJoin hj
    · simp only [stepStand, joinStep, if_neg hj, Option.some.injEq, Prod.mk.injEq] at h
      obtain ⟨rfl, rfl, rfl⟩ := h
      exact .leaveJoin (Bool.eq_false_iff.mpr hj)
  | joining =>
    by_cases he : w.ended = true
    · simp only [stepStand, joinStep, if_pos he, Option.some.injEq, Prod.mk.injEq] at h
      obtain ⟨rfl, rfl, rfl⟩ := h
      exact .join he
    · simp [stepStand, joinStep, he] at h

theorem Scene.stepStand_cases (h : stepStand m w d x = some (w', x', d')) :
    Turn m w d x w' x' d' := by
  cases x with
  | idle => simp [stepStand] at h
  | enqueuing item pc => exact enqueuing_cases h
  | closing pc =>
    cases pc with
    | locking =>
      cases he : w.entrance with
      | none =>
        simp only [stepStand, closeStep, he, Option.isSome_none, Bool.false_eq_true, if_false,
          Option.some.injEq, Prod.mk.injEq] at h
        obtain ⟨rfl, rfl, rfl⟩ := h
        exact .lockClose he
      | some u => simp [stepStand, closeStep, he] at h
    | holding =>
      simp only [stepStand, closeStep, Option.some.injEq, Prod.mk.injEq] at h
      obtain ⟨rfl, rfl, rfl⟩ := h
      exact .close
  | joining pc => exact joining_cases h
  | looking pc =>
    cases pc with
    | locking =>
      cases he : w.entrance with
      | none =>
        simp only [stepStand, lookOpenStep, he, Option.isSome_none, Bool.false_eq_true, if_false,
          Option.some.injEq, Prod.mk.injEq] at h
        obtain ⟨rfl, rfl, rfl⟩ := h
        exact .lockLook he
      | some u => simp [stepStand, lookOpenStep, he] at h
    | holding =>
      simp only [stepStand, lookOpenStep, Option.some.injEq, Prod.mk.injEq] at h
      obtain ⟨rfl, rfl, rfl⟩ := h
      exact .look
  | reading pc =>
    cases pc <;> simp only [stepStand, statsStep, Option.some.injEq, Prod.mk.injEq] at h <;>
      obtain ⟨rfl, rfl, rfl⟩ := h
    · exact .readPending
    · exact .readExecuted _
    · exact .readPanicked _ _

end Steps

namespace Turn

variable {m : Moment} {w w' : Worker ι} {d d' : Deeds ι} {x x' : Stand ι}

theorem locked (h : Turn m w d x w' x' d') (hh : x.holds.toNat ≤ w.entrance.isSome.toNat) :
    x'.holds.toNat + w.entrance.isSome.toNat = x.holds.toNat + w'.entrance.isSome.toNat := by
  cases h with
  | lockEnqueue item h => simp [Stand.holds, h]
  | lockClose h | lockLook h => simp [Stand.holds, h]
  | refuse | rollBack | release | look =>
    simp only [Stand.holds, Bool.toNat_true, Bool.toNat_false] at hh ⊢
    have hle := Bool.toNat_le w.entrance.isSome
    simp only [Option.isSome_none, Bool.toNat_false]
    omega
  | close =>
    have hle := Bool.toNat_le w.entrance.isSome
    have hx' :
        (if m.self = w.thread then .idle else .joining .locking : Stand ι).holds = false := by
      split <;> rfl
    rw [hx']
    simp only [Stand.holds, Bool.toNat_true, Bool.toNat_false, Option.isSome_none] at hh ⊢
    omega
  | _ => rfl

theorem ended (h : Turn m w d x w' x' d') : w'.ended = w.ended := by
  cases h <;> rfl

theorem started (h : Turn m w d x w' x' d') : d'.started = d.started ∧ d'.ended = d.ended := by
  cases h <;> exact ⟨rfl, rfl⟩

/-- The queue and the list of accepted items grow together, by an item that is let in. -/
theorem accepted (h : Turn m w d x w' x' d') :
    w'.items = w.items ∧ d'.accepted = d.accepted ∨
      x.isLetIn ∧ ∃ item, w'.items = w.items ++ [item] ∧ d'.accepted = d.accepted ++ [item] := by
  cases h with
  | send item he => exact .inr ⟨rfl, item, rfl, rfl⟩
  | _ => exact .inl ⟨rfl, rfl⟩

/-- Only who closes the worker, and holds the lock for it, changes whether it is open. -/
theorem isOpen (h : Turn m w d x w' x' d') :
    w'.isOpen = w.isOpen ∨ w'.isOpen = false ∧ x.holds ∧ ¬ x'.isLetIn := by
  cases h with
  | close =>
    refine .inr ⟨rfl, rfl, ?_⟩
    split <;> exact nofun
  | _ => exact .inl rfl

theorem isLetIn (h : Turn m w d x w' x' d') (hx : x.isLetIn → w.isOpen = true)
    (hx' : x'.isLetIn) : w'.isOpen = true := by
  cases h with
  | letIn item ho => exact ho
  | fail | send => exact hx rfl
  | close =>
    split at hx' <;> cases hx'
  | _ => cases hx'

/-- An enqueue fails only where it was let in and the worker's thread has left. -/
theorem rollingBack (h : Turn m w d x w' x' d') {item : ι}
    (hx' : x' = .enqueuing item .rollingBack) : x.isLetIn ∧ w.ended = true := by
  cases h with
  | fail item he => exact ⟨rfl, he⟩
  | close => split at hx' <;> cases hx'
  | _ => cases hx'

theorem refused (h : Turn m w d x w' x' d') : d.refused <+: d'.refused := by
  cases h with
  | refuse | rollBack => exact List.prefix_append _ _
  | _ => exact List.prefix_rfl

theorem handed [DecidableEq ι] (h : Turn m w d x w' x' d') (item : ι) :
    d'.accepted.count item + d'.refused.count item + x'.item?.toList.count item =
      d.accepted.count item + d.refused.count item + x.item?.toList.count item := by
  cases h with
  | refuse | rollBack =>
    simp only [Stand.item?, List.count_append, Option.toList, List.count_nil]
    omega
  | send =>
    simp only [Stand.item?, List.count_append, Option.toList, List.count_nil]
    omega
  | close =>
    have hx' : (if m.self = w.thread then .idle else .joining .locking : Stand ι).item? = none := by
      split <;> rfl
    rw [hx']
    rfl
  | _ => rfl

end Turn
end CrossCall.Worker
