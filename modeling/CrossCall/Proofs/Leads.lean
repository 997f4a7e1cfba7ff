import CrossCall.Proofs.Programs

/-! What a program of one thread comes to while other threads interfere. What the others may do
between two of its steps is given by one relation, what its own steps may do by another; within
these the program comes to where it is to come, and nothing can stop it for ever. A program that
stands inside a larger one takes its steps there as it does by itself. -/

namespace CrossCall.Program

variable {σ τ α β ρ : Type} {t : ThreadId} {rely guar : σ → σ → Prop}
  {P P' : Program σ α → σ → Prop} {p q : Program σ α} {s s' : σ} {m : Moment}

/-- Nothing is left to do, and this is the result. -/
def Ended : Program σ α → Except Payload α → Prop
  | pure x, r => r = .ok x
  | unwind payload, r => r = .error payload
  | _, _ => False

theorem Ended.ne_going {r : Except Payload α} (h : p.Ended r) : p.step m s ≠ .going s' q := by
  cases p with
  | pure x => exact nofun
  | unwind payload => exact nofun
  | _ => cases h

theorem Ended.unique {r r' : Except Payload α} (h : p.Ended r) (h' : p.Ended r') : r = r' := by
  cases p with
  | pure x => exact Eq.trans h (Eq.symm h')
  | unwind payload => exact Eq.trans h (Eq.symm h')
  | _ => cases h

/-- From here thread `t` brings the program to where `P` holds. Before each of its steps the others
may have changed the state within `rely`; no step is impossible for ever, and each is within
`guar`. -/
inductive Leads (t : ThreadId) (rely guar : σ → σ → Prop) (P : Program σ α → σ → Prop) :
    Program σ α → σ → Prop where
  | there {p : Program σ α} {s : σ} : (∀ s', rely s s' → P p s') → Leads t rely guar P p s
  | step {p : Program σ α} {s : σ} :
      (∀ s', rely s s' → ∃ later, ∀ m : Moment, m.self = t → later ≤ m.now →
        ∃ s'' q, p.step m s' = .going s'' q) →
      (∀ (m : Moment) s' s'' q, rely s s' → m.self = t → p.step m s' = .going s'' q →
        guar s' s'') →
      (∀ (m : Moment) s' s'' q, rely s s' → m.self = t → p.step m s' = .going s'' q →
        Leads t rely guar P q s'') →
      Leads t rely guar P p s

/-- The program ends, with a result and in a state that go together. -/
abbrev Ends (t : ThreadId) (rely guar : σ → σ → Prop) (Q : Except Payload α → σ → Prop) :
    Program σ α → σ → Prop :=
  Leads t rely guar fun p s => ∃ r, p.Ended r ∧ Q r s

/-- A program that has ended by now has come to where it is to come. -/
theorem Leads.of_ended {r : Except Payload α} (h : Leads t rely guar P p s) (hrefl : rely s s)
    (hr : p.Ended r) : P p s := by
  cases h with
  | there hp => exact hp s hrefl
  | step hcan _ _ =>
    obtain ⟨later, hlater⟩ := hcan s hrefl
    obtain ⟨s', q, hs⟩ := hlater ⟨t, later, false, 0⟩ rfl (Nat.le_refl _)
    exact absurd hs hr.ne_going

theorem Ends.of_ended {Q : Except Payload α → σ → Prop} {r : Except Payload α}
    (h : p.Ends t rely guar Q s) (hrefl : rely s s) (hr : p.Ended r) : Q r s := by
  obtain ⟨r', hr', hQ⟩ := Leads.of_ended h hrefl hr
  exact hr.unique hr' ▸ hQ

namespace Leads

theorem mono (h : Leads t rely guar P p s) (hP : ∀ p s, P p s → P' p s) :
    Leads t rely guar P' p s := by
  induction h with
  | there hp => exact .there fun s' hs => hP _ _ (hp s' hs)
  | step hcan hguar _ ih => exact .step hcan hguar ih

theorem weaken {rely' guar' : σ → σ → Prop} (h : Leads t rely guar P p s)
    (hrely : ∀ s s', rely' s s' → rely s s') (hguar : ∀ s s', guar s s' → guar' s s') :
    Leads t rely' guar' P p s := by
  induction h with
  | there hp => exact .there fun s' hs => hp s' (hrely _ _ hs)
  | step hcan hg _ ih =>
    refine .step (fun s' hs => hcan s' (hrely _ _ hs))
      (fun m s' s'' q hs hm hstep => hguar _ _ (hg m s' s'' q (hrely _ _ hs) hm hstep)) ?_
    exact fun m s' s'' q hs hm hstep => ih m s' s'' q (hrely _ _ hs) hm hstep

/-- What the others do in between changes nothing. -/
theorem stable (h : Leads t rely guar P p s) (htrans : ∀ a b c, rely a b → rely b c → rely a c)
    (hs : rely s s') : Leads t rely guar P p s' := by
  cases h with
  | there hp => exact .there fun s'' hs' => hp s'' (htrans _ _ _ hs hs')
  | step hcan hguar hnext =>
    refine .step (fun s'' hs' => hcan s'' (htrans _ _ _ hs hs')) ?_ ?_
    · exact fun m u s'' q hu => hguar m u s'' q (htrans _ _ _ hs hu)
    · exact fun m u s'' q hu => hnext m u s'' q (htrans _ _ _ hs hu)

/-- What neither the others nor the program itself can change holds at the end too. -/
theorem keep {I : σ → Prop} (h : Leads t rely guar P p s)
    (hrely : ∀ s s', rely s s' → I s → I s') (hguar : ∀ s s', guar s s' → I s → I s') (hI : I s) :
    Leads t rely guar (fun p s => P p s ∧ I s) p s := by
  induction h with
  | there hp => exact .there fun s' hs => ⟨hp s' hs, hrely _ _ hs hI⟩
  | step hcan hg _ ih =>
    refine .step hcan hg fun m s' s'' q hs hm hstep => ih m s' s'' q hs hm hstep ?_
    exact hguar _ _ (hg m s' s'' q hs hm hstep) (hrely _ _ hs hI)

end Leads

theorem going_on {part : Part σ τ} {r : Routine τ ρ} {pc pc' : r.Pc} {k : ρ → Program σ α}
    {x x' : τ} (hx : part.get? s = some x) (hr : r.step m x pc = .going x' pc') :
    (perform (r.on part) pc k).step m s = .going (part.put s x') (perform (r.on part) pc' k) := by
  have hon : (r.on part).step m s pc = .going (part.put s x') pc' := by
    simp only [Routine.on, hx, hr, Progress.mapState]
  simp only [step, hon]

theorem finished_on {part : Part σ τ} {r : Routine τ ρ} {pc : r.Pc} {k : ρ → Program σ α}
    {x x' : τ} {y : ρ} (hx : part.get? s = some x) (hr : r.step m x pc = .finished x' y) :
    (perform (r.on part) pc k).step m s = .going (part.put s x') (k y) := by
  have hon : (r.on part).step m s pc = .finished (part.put s x') y := by
    simp only [Routine.on, hx, hr, Progress.mapState]
  simp only [step, hon]

/-! ### Programs inside programs -/

/-- What stands around a program and goes on once the program has ended. -/
def IsAround (C : Program σ α → Program σ β) : Prop :=
  ∀ (ρ : Type) (r : Routine σ ρ) (pc : r.Pc) (k : ρ → Program σ α),
    C (.perform r pc k) = .perform r pc fun x => C (k x)

theorem isAround_bind (f : α → Program σ β) : IsAround fun p : Program σ α => p.bind f :=
  fun _ _ _ _ => rfl

theorem isAround_attempt : IsAround fun p : Program σ α => p.attempt := fun _ _ _ _ => rfl

theorem IsAround.comp {γ : Type} {C : Program σ α → Program σ β} {D : Program σ β → Program σ γ}
    (hD : IsAround D) (hC : IsAround C) : IsAround fun p => D (C p) := by
  intro ρ r pc k
  show D (C (perform r pc k)) = _
  rw [hC, hD]

theorem exists_perform (h : p.step m s = .going s' q) :
    ∃ (ρ : Type) (r : Routine σ ρ) (pc : r.Pc) (k : ρ → Program σ α), p = perform r pc k := by
  cases p with
  | perform r pc k => exact ⟨_, r, pc, k, rfl⟩
  | _ => cases h

theorem step_around {C : Program σ α → Program σ β} (hC : IsAround C)
    (h : p.step m s = .going s' q) : (C p).step m s = .going s' (C q) := by
  obtain ⟨ρ, r, pc, k, rfl⟩ := exists_perform h
  rw [hC]
  simp only [step] at h ⊢
  cases hr : r.step m s pc with
  | blocked => simp [hr] at h
  | going u pc' =>
    simp only [hr, Outcome.going.injEq] at h ⊢
    obtain ⟨rfl, rfl⟩ := h
    exact ⟨rfl, (hC _ r pc' k).symm⟩
  | finished u x =>
    simp only [hr, Outcome.going.injEq] at h ⊢
    obtain ⟨rfl, rfl⟩ := h
    exact ⟨rfl, rfl⟩

/-- The other way round: where something is left to do, a step of the whole is one of the part. -/
theorem of_step_around {C : Program σ α → Program σ β} (hC : IsAround C) (r : Routine σ ρ)
    (pc : r.Pc) (k : ρ → Program σ α) {q : Program σ β}
    (h : (C (perform r pc k)).step m s = .going s' q) :
    ∃ p', (perform r pc k).step m s = .going s' p' ∧ q = C p' := by
  rw [hC] at h
  simp only [step] at h ⊢
  cases hr : r.step m s pc with
  | blocked => simp [hr] at h
  | going u pc' =>
    simp only [hr, Outcome.going.injEq] at h
    obtain ⟨rfl, rfl⟩ := h
    exact ⟨_, rfl, (hC _ r pc' k).symm⟩
  | finished u x =>
    simp only [hr, Outcome.going.injEq] at h
    obtain ⟨rfl, rfl⟩ := h
    exact ⟨_, rfl, rfl⟩

theorem bind_assoc {γ : Type} (p : Program σ α) (f : α → Program σ β) (g : β → Program σ γ) :
    (p.bind f).bind g = p.bind fun x => (f x).bind g := by
  induction p with
  | pure x => rfl
  | unwind payload => rfl
  | perform r pc next ih =>
    show perform r pc _ = perform r pc _
    congr 1
    exact funext fun x => ih x f
  | fork opening again next _ _ ih =>
    show fork opening again _ = fork opening again _
    congr 1
    exact funext fun t => ih t f

/-- Runs a program; what it ends with, a panic included, becomes something else. -/
def mapResult (g : Except Payload α → Except Payload β) (p : Program σ α) : Program σ β :=
  p.attempt.bind fun r => ofExcept (g r)

theorem mapResult_pure (g : Except Payload α → Except Payload β) (x : α) :
    (pure x : Program σ α).mapResult g = ofExcept (g (.ok x)) := rfl

theorem mapResult_unwind (g : Except Payload α → Except Payload β) (payload : Payload) :
    (unwind payload : Program σ α).mapResult g = ofExcept (g (.error payload)) := rfl

theorem mapResult_perform (g : Except Payload α → Except Payload β) (r : Routine σ ρ) (pc : r.Pc)
    (k : ρ → Program σ α) :
    (perform r pc k).mapResult g = perform r pc fun x => (k x).mapResult g := rfl

theorem isAround_mapResult (g : Except Payload α → Except Payload β) :
    IsAround fun p : Program σ α => p.mapResult g :=
  (isAround_bind _).comp isAround_attempt

theorem attempt_ofExcept (r : Except Payload α) :
    (ofExcept r : Program σ α).attempt = pure r := by
  cases r <;> rfl

theorem mapResult_attempt_bind {γ : Type} (g : Except Payload α → Except Payload β)
    (p : Program σ α) (k : Except Payload β → Program σ γ) :
    (p.mapResult g).attempt.bind k = p.attempt.bind fun r => k (g r) := by
  induction p with
  | pure x => exact congrArg (·.bind k) (attempt_ofExcept (g (.ok x)))
  | unwind payload => exact congrArg (·.bind k) (attempt_ofExcept (g (.error payload)))
  | perform r pc next ih =>
    show perform r pc _ = perform r pc _
    congr 1
    exact funext fun x => ih x g
  | fork opening again next _ _ ih =>
    show fork opening again _ = fork opening again _
    congr 1
    exact funext fun t => ih t g

theorem mapResult_mapResult {γ : Type} (g : Except Payload α → Except Payload β)
    (h : Except Payload β → Except Payload γ) (p : Program σ α) :
    (p.mapResult g).mapResult h = p.mapResult fun r => h (g r) :=
  mapResult_attempt_bind g p fun r => ofExcept (h r)

theorem bind_pure_eq_mapResult (f : α → β) (p : Program σ α) :
    (p.bind fun x => pure (f x)) = p.mapResult (·.map f) := by
  induction p with
  | pure x => rfl
  | unwind payload => rfl
  | perform r pc next ih =>
    show perform r pc _ = perform r pc _
    congr 1
    exact funext fun x => ih x f
  | fork opening again next _ _ ih =>
    show fork opening again _ = fork opening again _
    congr 1
    exact funext fun t => ih t f

theorem step_ofExcept (r : Except Payload α) (m : Moment) (s : σ) :
    (ofExcept r).step m s = .halted r := by
  cases r <;> rfl

theorem ended_ofExcept {r r' : Except Payload α} (h : (ofExcept r : Program σ α).Ended r') :
    r' = r := by
  cases r <;> exact h

theorem exists_ended_of_mapResult {g : Except Payload α → Except Payload β}
    {r' : Except Payload β} (h : (p.mapResult g).Ended r') : ∃ r, p.Ended r ∧ r' = g r := by
  cases p with
  | pure x => exact ⟨.ok x, rfl, ended_ofExcept h⟩
  | unwind payload => exact ⟨.error payload, rfl, ended_ofExcept h⟩
  | _ => cases h

theorem Ended.mapResult {r : Except Payload α} (h : p.Ended r)
    (g : Except Payload α → Except Payload β) : (p.mapResult g).Ended (g r) := by
  cases p with
  | pure x =>
    cases h
    show (ofExcept (g (.ok x)) : Program σ β).Ended _
    cases g (.ok x) <;> rfl
  | unwind payload =>
    cases h
    show (ofExcept (g (.error payload)) : Program σ β).Ended _
    cases g (.error payload) <;> rfl
  | _ => cases h

namespace Leads

variable {Q : Except Payload α → σ → Prop} {R : Program σ β → σ → Prop}

/-- What a program can do next the whole can do next. -/
theorem step_around {C : Program σ α → Program σ β} (hC : IsAround C) (hrefl : ∀ s, rely s s)
    (hcan : ∀ s', rely s s' → ∃ later, ∀ m : Moment, m.self = t → later ≤ m.now →
      ∃ s'' q, p.step m s' = .going s'' q)
    (hguar : ∀ (m : Moment) s' s'' q, rely s s' → m.self = t → p.step m s' = .going s'' q →
      guar s' s'')
    (hnext : ∀ (m : Moment) s' s'' q, rely s s' → m.self = t → p.step m s' = .going s'' q →
      Leads t rely guar R (C q) s'') : Leads t rely guar R (C p) s := by
  have hperform : ∃ (ρ : Type) (r : Routine σ ρ) (pc : r.Pc) (k : ρ → Program σ α),
      p = perform r pc k := by
    obtain ⟨later, hlater⟩ := hcan s (hrefl s)
    obtain ⟨s'', q, hq⟩ := hlater ⟨t, later, false, 0⟩ rfl (Nat.le_refl _)
    exact exists_perform hq
  obtain ⟨ρ, r, pc, k, rfl⟩ := hperform
  refine .step (fun s' hs => ?_) (fun m s' s'' q hs hm hstep => ?_)
    (fun m s' s'' q hs hm hstep => ?_)
  · obtain ⟨later, hlater⟩ := hcan s' hs
    refine ⟨later, fun m hm hle => ?_⟩
    obtain ⟨s'', q, hq⟩ := hlater m hm hle
    exact ⟨s'', C q, Program.step_around hC hq⟩
  · obtain ⟨p', hp', -⟩ := of_step_around hC r pc k hstep
    exact hguar m s' s'' p' hs hm hp'
  · obtain ⟨p', hp', rfl⟩ := of_step_around hC r pc k hstep
    exact hnext m s' s'' p' hs hm hp'

/-- A program that comes to where the whole leads on leads on as part of the whole. -/
theorem around {C : Program σ α → Program σ β} (hC : IsAround C) (hrefl : ∀ s, rely s s)
    (h : Leads t rely guar (fun p s => Leads t rely guar R (C p) s) p s) :
    Leads t rely guar R (C p) s := by
  induction h with
  | there hp => exact hp _ (hrefl _)
  | step hcan hguar _ ih => exact step_around hC hrefl hcan hguar ih

/-- What a program ends with is made into something else. -/
theorem mapResult (g : Except Payload α → Except Payload β) (hrefl : ∀ s, rely s s)
    (h : Ends t rely guar Q p s) :
    Ends t rely guar (fun r s => ∃ r₀, r = g r₀ ∧ Q r₀ s) (p.mapResult g) s := by
  induction h with
  | there hp =>
    refine .there fun s' hs => ?_
    obtain ⟨r, hend, hQ⟩ := hp s' hs
    exact ⟨g r, hend.mapResult g, r, rfl, hQ⟩
  | step hcan hguar _ ih => exact step_around (isAround_mapResult g) hrefl hcan hguar ih

/-- Running a program and catching its panic, and then what its result asks for. -/
theorem attempt_bind {f : Except Payload α → Program σ β} (hrefl : ∀ s, rely s s)
    (h : Ends t rely guar Q p s) (hf : ∀ r s, Q r s → Leads t rely guar R (f r) s) :
    Leads t rely guar R (p.attempt.bind f) s := by
  refine around (C := fun p => p.attempt.bind f) ((isAround_bind f).comp isAround_attempt) hrefl ?_
  refine h.mono fun q s hq => ?_
  obtain ⟨r, hend, hQ⟩ := hq
  cases q with
  | pure x => cases hend; exact hf _ s hQ
  | unwind payload => cases hend; exact hf _ s hQ
  | _ => cases hend

/-- A step that is possible whenever the thread has its turn. -/
theorem of_going (h : ∀ (m : Moment) s', rely s s' → m.self = t → ∃ s'' q,
      p.step m s' = .going s'' q ∧ guar s' s'' ∧ Leads t rely guar P q s'') :
    Leads t rely guar P p s := by
  refine .step (fun s' hs => ⟨0, fun m hm _ => ?_⟩) (fun m s' s'' q hs hm hstep => ?_)
    (fun m s' s'' q hs hm hstep => ?_)
  · obtain ⟨s'', q, hstep, -⟩ := h m s' hs hm
    exact ⟨s'', q, hstep⟩
  · obtain ⟨u, p', hgoing, hg, -⟩ := h m s' hs hm
    obtain ⟨rfl, -⟩ := Outcome.going.inj (hgoing.symm.trans hstep)
    exact hg
  · obtain ⟨u, p', hgoing, -, hlead⟩ := h m s' hs hm
    obtain ⟨rfl, rfl⟩ := Outcome.going.inj (hgoing.symm.trans hstep)
    exact hlead

/-- One atomic step. -/
theorem atomic {f : Moment → σ → ρ × σ} {k : ρ → Program σ α}
    (h : ∀ (m : Moment) s', rely s s' → m.self = t →
      guar s' (f m s').2 ∧ Leads t rely guar P (k (f m s').1) (f m s').2) :
    Leads t rely guar P ((run (.atomic f)).bind k) s :=
  of_going fun m s' hs hm => ⟨_, _, rfl, h m s' hs hm⟩

/-- One step of a routine on a part of the state. -/
theorem on {part : Part σ τ} {r : Routine τ ρ} {pc : r.Pc} {k : ρ → Program σ α}
    (h : ∀ (m : Moment) s', rely s s' → m.self = t → ∃ x x', part.get? s' = some x ∧
      guar s' (part.put s' x') ∧
      ((∃ pc', r.step m x pc = .going x' pc' ∧
        Leads t rely guar P (perform (r.on part) pc' k) (part.put s' x')) ∨
      ∃ y, r.step m x pc = .finished x' y ∧ Leads t rely guar P (k y) (part.put s' x'))) :
    Leads t rely guar P (perform (r.on part) pc k) s := by
  refine of_going fun m s' hs hm => ?_
  obtain ⟨x, x', hx, hg, ⟨pc', hstep, hlead⟩ | ⟨y, hstep, hlead⟩⟩ := h m s' hs hm
  · exact ⟨_, _, going_on hx hstep, hg, hlead⟩
  · exact ⟨_, _, finished_on hx hstep, hg, hlead⟩

end Leads
end CrossCall.Program
