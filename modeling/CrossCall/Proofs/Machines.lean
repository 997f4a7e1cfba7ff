import CrossCall.Concurrent.Machine
import CrossCall.Proofs.Runs

/-! What every step of a machine does to the shared state. A relation between the states before and
after a step is checked of each routine by itself; programs that are put together from such routines
respect it, and so does a machine whose threads run such programs, however they take turns. -/

namespace CrossCall

variable {σ τ ρ υ α β π : Type} {R : σ → σ → Prop}

def Progress.Respects (P : σ → Prop) : Progress σ π ρ → Prop
  | .blocked => True
  | .going s _ | .finished s _ => P s

theorem Progress.respects_ite {P : σ → Prop} {c : Prop} [Decidable c] {p q : Progress σ π ρ}
    (hp : p.Respects P) (hq : q.Respects P) : (if c then p else q).Respects P := by
  split
  · exact hp
  · exact hq

namespace Routine

/-- Every step leads to a state that is related to the one before it. -/
def Respects (R : σ → σ → Prop) (r : Routine σ ρ) : Prop :=
  ∀ m s pc, (r.step m s pc).Respects (R s)

theorem Respects.on {part : Part σ τ} (r : Routine τ ρ) (h : ∀ s t, R s (part.put s t)) :
    (r.on part).Respects R := by
  intro m s pc
  simp only [Routine.on]
  split
  · trivial
  · next t _ =>
    cases r.step m t pc with
    | blocked => trivial
    | going t' pc' => exact h s t'
    | finished t' x => exact h s t'

/-- What a routine respects on a part, and what this comes to on the whole. -/
theorem Respects.onPart {part : Part σ τ} {S : τ → τ → Prop} {r : Routine τ ρ} (hr : r.Respects S)
    (h : ∀ s t t', part.get? s = some t → S t t' → R s (part.put s t')) :
    (r.on part).Respects R := by
  intro m s pc
  simp only [Routine.on]
  split
  · trivial
  · next t ht =>
    have hstep := hr m t pc
    revert hstep
    cases r.step m t pc with
    | blocked => exact id
    | going t' pc' => exact h s t t' ht
    | finished t' x => exact h s t t' ht

theorem Respects.atomic {f : Moment → σ → ρ × σ} (h : ∀ m s, R s (f m s).2) :
    (Routine.atomic f).Respects R := fun m s _ => h m s

theorem Respects.guarded {f : Moment → σ → Option (ρ × σ)}
    (h : ∀ m s x, f m s = some x → R s x.2) : (Routine.guarded f).Respects R := by
  intro m s _
  simp only [Routine.guarded]
  cases hf : f m s with
  | none => trivial
  | some x => exact h m s x hf

theorem Respects.andThen {r : Routine σ ρ} {next : ρ → Routine σ υ} (hr : r.Respects R)
    (hn : ∀ x, (next x).Respects R) : (r.andThen next).Respects R := by
  intro m s pc
  cases pc with
  | inl pc =>
    have h := hr m s pc
    simp only [Routine.andThen]
    cases hp : r.step m s pc <;> rw [hp] at h <;> exact h
  | inr pc =>
    have h := hn pc.1 m s pc.2
    simp only [Routine.andThen]
    cases hp : (next pc.1).step m s pc.2 <;> rw [hp] at h <;> exact h

theorem Respects.repeating {r : Routine σ Bool} (hr : r.Respects R) : r.repeating.Respects R := by
  intro m s pc
  have h := hr m s pc
  simp only [Routine.repeating]
  cases hp : r.step m s pc with
  | blocked => trivial
  | going s' pc' => rw [hp] at h; exact h
  | finished s' again => rw [hp] at h; cases again <;> exact h

theorem Respects.sleep (h : ∀ s, R s s) (span : Nat) : (Routine.sleep span).Respects R := by
  intro m s pc
  cases pc with
  | none => exact h s
  | some t =>
    simp only [Routine.sleep]
    split
    · exact h s
    · trivial

end Routine

namespace Program

/-- Every step of the program, and of the threads that it starts, is one that the relation allows. -/
def Respects (R : σ → σ → Prop) : {α : Type} → Program σ α → Prop
  | _, pure _ | _, unwind _ => True
  | _, perform r _ k => r.Respects R ∧ ∀ x, (k x).Respects R
  | _, fork opening again k => opening.Respects R ∧ again.Respects R ∧ ∀ t, (k t).Respects R

theorem Respects.bind {p : Program σ α} {f : α → Program σ β} (h : p.Respects R)
    (hf : ∀ x, (f x).Respects R) : (p.bind f).Respects R := by
  induction p with
  | pure x => exact hf x
  | unwind payload => trivial
  | perform r pc k ih => exact ⟨h.1, fun x => ih x (h.2 x) hf⟩
  | fork opening again k _ _ ih => exact ⟨h.1, h.2.1, fun t => ih t (h.2.2 t) hf⟩

theorem Respects.attempt {p : Program σ α} (h : p.Respects R) : p.attempt.Respects R := by
  induction p with
  | pure x => trivial
  | unwind payload => trivial
  | perform r pc k ih => exact ⟨h.1, fun x => ih x (h.2 x)⟩
  | fork opening again k _ _ ih => exact ⟨h.1, h.2.1, fun t => ih t (h.2.2 t)⟩

theorem Respects.run {r : Routine σ ρ} (h : r.Respects R) : (run r).Respects R :=
  ⟨h, fun _ => trivial⟩

theorem Respects.ofExcept (r : Except Payload α) : (ofExcept r : Program σ α).Respects R := by
  cases r <;> trivial

theorem Respects.spawn {body : Program σ Unit} (h : body.Respects R) : (spawn body).Respects R :=
  ⟨h.bind fun _ => trivial, trivial, fun _ => trivial⟩

theorem Respects.going {p q : Program σ α} {m : Moment} {s s' : σ} (h : p.Respects R)
    (hs : p.step m s = .going s' q) : R s s' ∧ q.Respects R := by
  cases p with
  | perform r pc k =>
    have hr := h.1 m s pc
    simp only [step] at hs
    cases hp : r.step m s pc with
    | blocked => simp [hp] at hs
    | going t pc' =>
      rw [hp] at hr
      simp only [hp, Outcome.going.injEq] at hs
      obtain ⟨rfl, rfl⟩ := hs
      exact ⟨hr, h⟩
    | finished t x =>
      rw [hp] at hr
      simp only [hp, Outcome.going.injEq] at hs
      obtain ⟨rfl, rfl⟩ := hs
      exact ⟨hr, h.2 x⟩
  | pure x => cases hs
  | unwind payload => cases hs
  | fork opening again k => cases hs

theorem Respects.forking {p : Program σ α} {m : Moment} {s : σ} {opening again : Program σ Bool}
    {next : ThreadId → Program σ α} (h : p.Respects R) (hs : p.step m s = .forking opening again next) :
    opening.Respects R ∧ again.Respects R ∧ ∀ t, (next t).Respects R := by
  cases p with
  | fork opening' again' k =>
    obtain ⟨rfl, rfl, rfl⟩ := Outcome.forking.inj hs
    exact h
  | perform r pc k =>
    simp only [step] at hs
    split at hs <;> cases hs
  | pure x => cases hs
  | unwind payload => cases hs

end Program

/-! ### Machines -/

def Thread.Respects (R : σ → σ → Prop) (thread : Thread σ) : Prop :=
  (∀ rest, thread.rest = some rest → rest.Respects R) ∧ thread.again.Respects R

namespace Machine

/-- A thread takes an atomic step, or the clock goes on. -/
inductive Move where
  | step (t : ThreadId) (stray : Bool) (pick : Nat)
  | tick (later : Instant)

def move (machine : Machine σ) : Move → Option (Machine σ)
  | .step t stray pick => machine.step t stray pick
  | .tick later => some (machine.tick later)

def Respects (R : σ → σ → Prop) (machine : Machine σ) : Prop :=
  ∀ thread ∈ machine.threads, thread.Respects R

variable {machine machine' : Machine σ} {m : Move} {t : ThreadId} {thread : Thread σ}

theorem mem_put {rest : Option (Program σ Bool)} {x : Thread σ}
    (hx : x ∈ machine.threads.setIfInBounds t { thread with rest }) :
    x ∈ machine.threads ∨ x = { thread with rest } := by
  rcases Array.mem_or_eq_of_mem_setIfInBounds hx with h | h
  · exact .inl h
  · exact .inr h

/-- What one step does: it changes nothing that is shared, or what it does is allowed. -/
theorem Respects.move (h : machine.Respects R) (hm : machine.move m = some machine') :
    (machine'.shared = machine.shared ∨ R machine.shared machine'.shared) ∧
      machine'.Respects R := by
  cases m with
  | tick later =>
    obtain rfl := Option.some.inj hm
    exact ⟨.inl rfl, h⟩
  | step t stray pick =>
    obtain ⟨thread, ht, hm⟩ := Option.bind_eq_some_iff.mp hm
    obtain ⟨rest, hrest, hm⟩ := Option.bind_eq_some_iff.mp hm
    obtain ⟨hr, hagain⟩ := h thread (Array.mem_of_getElem? ht)
    have hput (next : Option (Program σ Bool)) (hn : ∀ p, next = some p → p.Respects R) :
        ∀ x ∈ machine.threads.setIfInBounds t { thread with rest := next }, x.Respects R := by
      intro x hx
      rcases mem_put hx with hx | rfl
      · exact h x hx
      · exact ⟨hn, hagain⟩
    have hsome {p : Program σ Bool} (hp : p.Respects R) :
        ∀ q, some p = some q → q.Respects R := fun q hq => Option.some.inj hq ▸ hp
    simp only at hm
    split at hm
    · cases hm
    · obtain rfl := Option.some.inj hm
      exact ⟨.inl rfl, hput _ (hsome hagain)⟩
    · obtain rfl := Option.some.inj hm
      exact ⟨.inl rfl, hput none nofun⟩
    · next shared next hs =>
      obtain rfl := Option.some.inj hm
      obtain ⟨hR, hn⟩ := (hr rest hrest).going hs
      exact ⟨.inr hR, hput _ (hsome hn)⟩
    · next opening again next hs =>
      obtain rfl := Option.some.inj hm
      obtain ⟨ho, ha, hn⟩ := (hr rest hrest).forking hs
      refine ⟨.inl rfl, fun x hx => ?_⟩
      rcases Array.mem_push.mp hx with hx | rfl
      · exact hput _ (hsome (hn _)) x hx
      · exact ⟨hsome ho, ha⟩

theorem Respects.reachable {start : Machine σ} (h : start.Respects R)
    (hm : Reachable Machine.move (· = start) machine) : machine.Respects R :=
  Reachable.keeps (fun _ _ _ hs hm => (hs.move hm).2) hm fun _ hs => hs ▸ h

end Machine
end CrossCall
