import CrossCall.Concurrent.Alone

/-! What becomes of a program, whatever state each of its steps finds. A program in which every
panic is caught never ends by unwinding. -/

namespace CrossCall.Program

variable {σ α β ρ : Type} {p q : Program σ α}

/-- What may be left of a program after some of its steps. -/
inductive ComesTo (p : Program σ α) : Program σ α → Prop where
  | refl : ComesTo p p
  | going {q r : Program σ α} (m : Moment) (s s' : σ) :
      ComesTo p q → q.step m s = .going s' r → ComesTo p r
  | forking {q : Program σ α} {opening again : Program σ Bool} {next : ThreadId → Program σ α}
      (m : Moment) (s : σ) (t : ThreadId) :
      ComesTo p q → q.step m s = .forking opening again next → ComesTo p (next t)

theorem perform_ne_halted (r : Routine σ ρ) (pc : r.Pc) (k : ρ → Program σ α) (m : Moment) (s : σ)
    (result : Except Payload α) : (perform r pc k).step m s ≠ .halted result := by
  intro h
  simp only [step] at h
  split at h <;> cases h

theorem perform_ne_forking (r : Routine σ ρ) (pc : r.Pc) (k : ρ → Program σ α) (m : Moment) (s : σ)
    (opening again : Program σ Bool) (next : ThreadId → Program σ α) :
    (perform r pc k).step m s ≠ .forking opening again next := by
  intro h
  simp only [step] at h
  split at h <;> cases h

/-- A step in a routine on a part of the state: the part is there, and the routine goes on or ends
with what the rest of the program then goes on with. -/
theorem step_on {τ : Type} {part : Part σ τ} {r : Routine τ ρ} {pc : r.Pc} {k : ρ → Program σ α}
    {m : Moment} {s s' : σ} (h : (perform (r.on part) pc k).step m s = .going s' p) :
    ∃ t t', part.get? s = some t ∧ s' = part.put s t' ∧
      ((∃ pc', r.step m t pc = .going t' pc' ∧ p = perform (r.on part) pc' k) ∨
        ∃ x, r.step m t pc = .finished t' x ∧ p = k x) := by
  simp only [step, Routine.on] at h
  cases ht : part.get? s with
  | none => simp [ht] at h
  | some t =>
    simp only [ht] at h
    cases hr : r.step m t pc with
    | blocked => simp [hr, Progress.mapState] at h
    | going t' pc' =>
      simp only [hr, Progress.mapState, Outcome.going.injEq] at h
      obtain ⟨rfl, rfl⟩ := h
      exact ⟨t, t', rfl, rfl, .inl ⟨pc', hr, rfl⟩⟩
    | finished t' x =>
      simp only [hr, Progress.mapState, Outcome.going.injEq] at h
      obtain ⟨rfl, rfl⟩ := h
      exact ⟨t, t', rfl, rfl, .inr ⟨x, hr, rfl⟩⟩

theorem step_atomic {τ : Type} {part : Part σ τ} {f : Moment → τ → ρ × τ} {k : ρ → Program σ α}
    {m : Moment} {s s' : σ}
    (h : ((run ((Routine.atomic f).on part)).bind k).step m s = .going s' p) :
    ∃ t, part.get? s = some t ∧ s' = part.put s (f m t).2 ∧ p = k (f m t).1 := by
  obtain ⟨t, t', ht, hs, ⟨pc, hr, -⟩ | ⟨x, hr, rfl⟩⟩ := step_on h
  · cases hr
  · obtain ⟨rfl, rfl⟩ := Progress.finished.inj hr
    exact ⟨t, ht, hs, rfl⟩

theorem step_guarded {τ : Type} {part : Part σ τ} {f : Moment → τ → Option (ρ × τ)}
    {k : ρ → Program σ α} {m : Moment} {s s' : σ}
    (h : ((run ((Routine.guarded f).on part)).bind k).step m s = .going s' p) :
    ∃ t x t', part.get? s = some t ∧ f m t = some (x, t') ∧ s' = part.put s t' ∧ p = k x := by
  obtain ⟨t, t', ht, hs, hr⟩ := step_on h
  simp only [Routine.guarded] at hr
  cases hf : f m t with
  | none => simp [hf] at hr
  | some y =>
    simp only [hf] at hr
    rcases hr with ⟨pc, hr, -⟩ | ⟨x, hr, rfl⟩
    · cases hr
    · obtain ⟨rfl, rfl⟩ := Progress.finished.inj hr
      exact ⟨t, y.1, y.2, ht, hf, hs, rfl⟩

theorem Alone.of_pure {t : ThreadId} {s s' : σ} {x : α} {r : Except Payload α}
    (h : (pure x : Program σ α).Alone t s r s') : r = .ok x ∧ s' = s := by
  cases h with
  | halted m hm hs => cases hs; exact ⟨rfl, rfl⟩
  | going m hm hs => cases hs

theorem Alone.of_atomic {t : ThreadId} {s s' : σ} {f : Moment → σ → ρ × σ} {k : ρ → Program σ α}
    {r : Except Payload α} (h : ((run (.atomic f)).bind k).Alone t s r s') :
    ∃ m : Moment, m.self = t ∧ (k (f m s).1).Alone t (f m s).2 r s' := by
  cases h with
  | halted m hm hs => cases hs
  | going m hm hs h => cases hs; exact ⟨m, hm, h⟩

/-- No way through the program ends by unwinding. -/
def NeverUnwinds : Program σ α → Prop
  | pure _ => True
  | unwind _ => False
  | perform _ _ k => ∀ x, (k x).NeverUnwinds
  | fork _ _ k => ∀ t, (k t).NeverUnwinds

theorem NeverUnwinds.bind {f : α → Program σ β} (h : p.NeverUnwinds)
    (hf : ∀ x, (f x).NeverUnwinds) : (p.bind f).NeverUnwinds := by
  induction p with
  | pure x => exact hf x
  | unwind payload => cases h
  | perform r pc k ih => exact fun x => ih x (h x) hf
  | fork opening again k _ _ ih => exact fun t => ih t (h t) hf

theorem neverUnwinds_run (r : Routine σ ρ) : (run r).NeverUnwinds := fun _ => trivial

theorem neverUnwinds_attempt (p : Program σ α) : p.attempt.NeverUnwinds := by
  induction p with
  | pure x => trivial
  | unwind payload => trivial
  | perform r pc k ih => exact ih
  | fork opening again k _ _ ih => exact ih

/-- Every way through the program that ends returns such a value. -/
def Returns (P : α → Prop) : Program σ α → Prop
  | pure x => P x
  | unwind _ => False
  | perform _ _ k => ∀ x, (k x).Returns P
  | fork _ _ k => ∀ t, (k t).Returns P

theorem neverUnwinds_iff : p.NeverUnwinds ↔ p.Returns fun _ => True := by
  induction p with
  | pure x => exact Iff.rfl
  | unwind payload => exact Iff.rfl
  | perform r pc k ih => exact forall_congr' ih
  | fork opening again k _ _ ih => exact forall_congr' ih

theorem Returns.bind {P : α → Prop} {Q : β → Prop} {f : α → Program σ β} (h : p.Returns P)
    (hf : ∀ x, P x → (f x).Returns Q) : (p.bind f).Returns Q := by
  induction p with
  | pure x => exact hf x h
  | unwind payload => cases h
  | perform r pc k ih => exact fun x => ih x (h x) hf
  | fork opening again k _ _ ih => exact fun t => ih t (h t) hf

/-- Nothing is there to be caught. -/
theorem Returns.attempt {P : α → Prop} (h : p.Returns P) :
    p.attempt.Returns fun r => ∃ x, r = .ok x ∧ P x := by
  induction p with
  | pure x => exact ⟨x, rfl, h⟩
  | unwind payload => cases h
  | perform r pc k ih => exact fun x => ih x (h x)
  | fork opening again k _ _ ih => exact fun t => ih t (h t)

theorem Returns.comesTo {P : α → Prop} (h : p.Returns P) (hq : p.ComesTo q) : q.Returns P := by
  induction hq with
  | refl => exact h
  | @going q r m s s' _ hs ih =>
    cases q with
    | pure x => cases hs
    | unwind payload => cases hs
    | perform routine pc k =>
      simp only [step] at hs
      cases hr : routine.step m s pc with
      | blocked => simp [hr] at hs
      | going t pc' =>
        simp only [hr, Outcome.going.injEq] at hs
        exact hs.2 ▸ ih
      | finished t x =>
        simp only [hr, Outcome.going.injEq] at hs
        exact hs.2 ▸ ih x
    | fork opening again k => cases hs
  | @forking q opening again next m s t _ hs ih =>
    cases q with
    | fork opening' again' k =>
      simp only [step, Outcome.forking.injEq] at hs
      exact hs.2.2 ▸ ih t
    | perform routine pc k => exact absurd hs (perform_ne_forking routine pc k m s _ _ _)
    | _ => cases hs

theorem Returns.halted {P : α → Prop} {m : Moment} {s : σ} {r : Except Payload α}
    (h : p.Returns P) (hs : p.step m s = .halted r) : ∃ x, r = .ok x ∧ P x := by
  cases p with
  | pure x => exact ⟨x, (Outcome.halted.inj hs).symm, h⟩
  | unwind payload => cases h
  | perform routine pc k => exact absurd hs (perform_ne_halted routine pc k m s r)
  | fork opening again k => cases hs

theorem NeverUnwinds.comesTo (h : p.NeverUnwinds) (hq : p.ComesTo q) : q.NeverUnwinds :=
  neverUnwinds_iff.mpr ((neverUnwinds_iff.mp h).comesTo hq)

theorem NeverUnwinds.ne_halted (h : p.NeverUnwinds) (m : Moment) (s : σ) (payload : Payload) :
    p.step m s ≠ .halted (.error payload) := by
  intro hs
  obtain ⟨x, hx, -⟩ := (neverUnwinds_iff.mp h).halted hs
  cases hx

/-- No way through the program starts a thread. -/
def NeverForks : Program σ α → Prop
  | pure _ | unwind _ => True
  | perform _ _ k => ∀ x, (k x).NeverForks
  | fork _ _ _ => False

theorem NeverForks.bind {f : α → Program σ β} (h : p.NeverForks) (hf : ∀ x, (f x).NeverForks) :
    (p.bind f).NeverForks := by
  induction p with
  | pure x => exact hf x
  | unwind payload => trivial
  | perform r pc k ih => exact fun x => ih x (h x) hf
  | fork opening again k => cases h

theorem NeverForks.attempt (h : p.NeverForks) : p.attempt.NeverForks := by
  induction p with
  | pure x => trivial
  | unwind payload => trivial
  | perform r pc k ih => exact fun x => ih x (h x)
  | fork opening again k => cases h

theorem NeverForks.going {m : Moment} {s s' : σ} (h : p.NeverForks) (hs : p.step m s = .going s' q) :
    q.NeverForks := by
  cases p with
  | perform r pc k =>
    simp only [step] at hs
    cases hr : r.step m s pc with
    | blocked => simp [hr] at hs
    | going t pc' =>
      simp only [hr, Outcome.going.injEq] at hs
      exact hs.2 ▸ h
    | finished t x =>
      simp only [hr, Outcome.going.injEq] at hs
      exact hs.2 ▸ h x
  | _ => cases hs

theorem NeverForks.ne_forking (h : p.NeverForks) (m : Moment) (s : σ) (opening again : Program σ Bool)
    (next : ThreadId → Program σ α) : p.step m s ≠ .forking opening again next := by
  cases p with
  | pure x => exact nofun
  | unwind payload => exact nofun
  | perform r pc k => exact perform_ne_forking r pc k m s _ _ _
  | fork opening again k => cases h

end CrossCall.Program
