import CrossCall.Proofs.Deeds
import Mathlib.Data.List.Infix
import Mathlib.Order.Defs.PartialOrder

/-! An invariant of what the threads of a machine share, and of what is noted about their course.
Notes are only added. A program upholds the invariant if each of its steps keeps it, whatever the
others do in between as long as they keep it too, and a program that upholds it may promise
something of its result, in terms of the deeds done and the notes made by then. If the programs of
all threads uphold the invariant, then it holds all along, and whoever has performed a program has
the result that the program promises. -/

namespace CrossCall

variable {σ κ ρ α β : Type}

/-- What has been done, and what has been noted of it. -/
structure Books (σ κ : Type) : Type 1 where
  past : List (Deed σ)
  notes : List κ

namespace Books

variable {b b' b'' : Books σ κ}

instance : Preorder (Books σ κ) where
  le b b' := b.past <:+ b'.past ∧ b.notes <+: b'.notes
  le_refl b := ⟨List.suffix_refl _, List.prefix_refl _⟩
  le_trans _ _ _ h h' := ⟨h.1.trans h'.1, h.2.trans h'.2⟩

theorem past_le (h : b ≤ b') : b.past <:+ b'.past := h.1

theorem note_le (h : b ≤ b') {i : Nat} {x : κ} (hi : b.notes[i]? = some x) :
    b'.notes[i]? = some x := by
  obtain ⟨more, hmore⟩ := h.2
  rw [← hmore, List.getElem?_append_left (List.getElem?_eq_some_iff.mp hi).1, hi]

/-- One more deed. -/
def next (b : Books σ κ) (d : Deed σ) : Books σ κ := { b with past := d :: b.past }

theorem le_next (b : Books σ κ) (d : Deed σ) : b ≤ b.next d :=
  ⟨List.suffix_cons _ _, List.prefix_refl _⟩

/-- One more deed, and notes with it. -/
theorem le_noted (d : Deed σ) {notes : List κ} (h : b.notes <+: notes) :
    b ≤ ⟨d :: b.past, notes⟩ :=
  ⟨List.suffix_cons _ _, h⟩

/-- Thread `t` has done nothing from `b` on. -/
inductive Aside (t : ThreadId) (b : Books σ κ) : Books σ κ → Prop where
  | start : Aside t b b
  | aside {b' : Books σ κ} {notes : List κ} (d : Deed σ) :
      Aside t b b' → d.moment.self ≠ t → b'.notes <+: notes → Aside t b ⟨d :: b'.past, notes⟩

/-- From `b` on thread `t` has gone on with one routine only, and has come from `pc` to `pc'`. What
it has left to do is told by the program counter. -/
inductive Amid (t : ThreadId) (r : Routine σ ρ) (left : r.Pc → Program σ Bool) (b : Books σ κ)
    (pc : r.Pc) : Books σ κ → r.Pc → Prop where
  | start : Amid t r left b pc b pc
  | aside {b' : Books σ κ} {notes : List κ} {pc' : r.Pc} (d : Deed σ) :
      Amid t r left b pc b' pc' → d.moment.self ≠ t → b'.notes <+: notes →
      Amid t r left b pc ⟨d :: b'.past, notes⟩ pc'
  | going {b' : Books σ κ} {pc' pc'' : r.Pc} {s : σ} (d : Deed σ) :
      Amid t r left b pc b' pc' → d.moment.self = t → d.left = left pc' →
      r.step d.moment d.state pc' = .going s pc'' → Amid t r left b pc (b'.next d) pc''

variable {t : ThreadId} {r : Routine σ ρ} {left : r.Pc → Program σ Bool} {pc pc' pc'' : r.Pc}

theorem Aside.le (h : Aside t b b') : b ≤ b' := by
  induction h with
  | start => exact le_refl b
  | aside d _ _ hnotes ih => exact ih.trans (le_noted d hnotes)

theorem Aside.trans (h : Aside t b b') (h' : Aside t b' b'') : Aside t b b'' := by
  induction h' with
  | start => exact h
  | aside d _ hne hnotes ih => exact .aside d ih hne hnotes

theorem Amid.le (h : Amid t r left b pc b' pc') : b ≤ b' := by
  induction h with
  | start => exact le_refl b
  | aside d _ _ hnotes ih => exact ih.trans (le_noted d hnotes)
  | going d _ _ _ _ ih => exact ih.trans (le_next _ d)

theorem Amid.trans (h : Amid t r left b pc b' pc') (h' : Amid t r left b' pc' b'' pc'') :
    Amid t r left b pc b'' pc'' := by
  induction h' with
  | start => exact h
  | aside d _ hne hnotes ih => exact .aside d ih hne hnotes
  | going d _ hself hleft hstep ih => exact .going d ih hself hleft hstep

end Books

/-- What a step of a routine comes to, if it can be taken. -/
def Progress.Within {π : Type} (P : σ → Prop) (Q : σ → ρ → Prop) : Progress σ π ρ → Prop
  | .blocked => True
  | .going s _ => P s
  | .finished s x => Q s x

theorem Progress.Within.mono {π : Type} {P P' : σ → Prop} {Q Q' : σ → ρ → Prop}
    {p : Progress σ π ρ} (h : p.Within P Q) (hP : ∀ s, P s → P' s) (hQ : ∀ s x, Q s x → Q' s x) :
    p.Within P' Q' := by
  cases p with
  | blocked => trivial
  | going s pc => exact hP s h
  | finished s x => exact hQ s x h

theorem Progress.within_ite {π : Type} {P : σ → Prop} {Q : σ → ρ → Prop} {c : Prop} [Decidable c]
    {p q : Progress σ π ρ} (hp : p.Within P Q) (hq : q.Within P Q) :
    (if c then p else q).Within P Q := by
  split
  · exact hp
  · exact hq

namespace Program

open Books

/-- As part `C` of thread `t`, from the books `b` on, every step of the program keeps the invariant
`I`, as do the threads that it starts; and `P` holds of the books and the result it ends with. -/
def Upholds (I : Books σ κ → σ → Prop) : {α : Type} → Program σ α → (t : ThreadId) →
    Around σ α → (Books σ κ → Except Payload α → Prop) → Books σ κ → Prop
  | _, pure x, _, _, P, b => P b (.ok x)
  | _, unwind payload, _, _, P, b => P b (.error payload)
  | _, perform r pc k, t, C, P, b =>
    ∀ b' pc', Amid t r (fun pc => C.whole (perform r pc k)) b pc b' pc' →
      ∀ d : Deed σ, d.moment.self = t → d.left = C.whole (perform r pc' k) → I b' d.state →
        (r.step d.moment d.state pc').Within (I (b'.next d)) fun s x => ∃ notes,
          b'.notes <+: notes ∧ I ⟨d :: b'.past, notes⟩ s ∧
            (k x).Upholds I t C P ⟨d :: b'.past, notes⟩
  | _, fork opening again k, t, C, P, b =>
    ∀ b', Aside t b b' →
      ∀ d : Deed σ, d.moment.self = t → d.left = C.whole (fork opening again k) → I b' d.state →
        (∀ b'', b'.next d ≤ b'' → opening.Upholds I d.fresh .turn (fun _ _ => True) b'') ∧
        (∀ b'', b'.next d ≤ b'' → again.Upholds I d.fresh .turn (fun _ _ => True) b'') ∧
        (k d.fresh).Upholds I t C P (b'.next d)

/-- What is said of books and results stays true as the books grow. -/
def Lasts (P : Books σ κ → Except Payload α → Prop) : Prop :=
  ∀ b b' r, b ≤ b' → P b r → P b' r

namespace Upholds

variable {I : Books σ κ → σ → Prop} {p q : Program σ α} {t : ThreadId} {C : Around σ α}
  {P Q : Books σ κ → Except Payload α → Prop} {b b' : Books σ κ} {d : Deed σ} {s : σ}

/-! ### Rules -/

theorem mono (h : p.Upholds I t C P b) (hPQ : ∀ b' r, b ≤ b' → P b' r → Q b' r) :
    p.Upholds I t C Q b := by
  induction p generalizing t b with
  | pure x => exact hPQ b _ (le_refl b) h
  | unwind payload => exact hPQ b _ (le_refl b) h
  | perform r pc k ih =>
    intro b' pc' hamid d hself hleft hI
    refine (h b' pc' hamid d hself hleft hI).mono (fun _ => id) ?_
    rintro s x ⟨notes, hnotes, hI', hk⟩
    refine ⟨notes, hnotes, hI', ih x hk fun b'' r hle => hPQ b'' r ?_⟩
    exact (hamid.le.trans (le_noted d hnotes)).trans hle
  | fork opening again k _ _ ih =>
    intro b' haside d hself hleft hI
    obtain ⟨hopening, hagain, hk⟩ := h b' haside d hself hleft hI
    refine ⟨hopening, hagain, ih d.fresh hk fun b'' r hle => hPQ b'' r ?_⟩
    exact (haside.le.trans (le_next b' d)).trans hle

/-- What stands around a program comes after its end. -/
theorem around {F : Program σ α → Program σ β} {C : Around σ β} {C' : Around σ α}
    {Q : Books σ κ → Except Payload β → Prop} (hF : IsAround F)
    (hfork : ∀ opening again k, F (.fork opening again k) = .fork opening again fun u => F (k u))
    (hC : ∀ p, C'.whole p = C.whole (F p))
    (h : p.Upholds I t C' (fun b' r => (F (Program.ofExcept r)).Upholds I t C Q b') b) :
    (F p).Upholds I t C Q b := by
  induction p generalizing b with
  | pure x => exact h
  | unwind payload => exact h
  | perform r pc k ih =>
    have hwhole : (fun pc => C'.whole (.perform r pc k)) =
        fun pc => C.whole (.perform r pc fun x => F (k x)) := by
      funext pc
      rw [hC, hF]
    rw [hF]
    intro b' pc' hamid d hself hleft hI
    refine (h b' pc' (hwhole ▸ hamid) d hself (hleft.trans (congrFun hwhole pc').symm) hI).mono
      (fun _ => id) ?_
    rintro s x ⟨notes, hnotes, hI', hk⟩
    exact ⟨notes, hnotes, hI', ih x hF hfork hC hk⟩
  | fork opening again k _ _ ih =>
    rw [hfork]
    intro b' haside d hself hleft hI
    rw [← hfork, ← hC] at hleft
    obtain ⟨hopening, hagain, hk⟩ := h b' haside d hself hleft hI
    exact ⟨hopening, hagain, ih d.fresh hF hfork hC hk⟩

theorem bind {f : α → Program σ β} {C : Around σ β} {Q : Books σ κ → Except Payload β → Prop}
    (h : p.Upholds I t (C.bind f) (fun b' r => match r with
      | .ok x => (f x).Upholds I t C Q b'
      | .error payload => Q b' (.error payload)) b) : (p.bind f).Upholds I t C Q b := by
  refine around (isAround_bind f) (fun _ _ _ => rfl) (fun _ => rfl) (h.mono fun b' r _ hr => ?_)
  cases r <;> exact hr

theorem attempt {C : Around σ (Except Payload α)}
    {Q : Books σ κ → Except Payload (Except Payload α) → Prop}
    (h : p.Upholds I t C.attempt (fun b' r => Q b' (.ok r)) b) : p.attempt.Upholds I t C Q b := by
  refine around isAround_attempt (fun _ _ _ => rfl) (fun _ => rfl) (h.mono fun b' r _ hr => ?_)
  cases r <;> exact hr

theorem ofExcept {r : Except Payload α} (h : P b r) : (ofExcept r).Upholds I t C P b := by
  cases r <;> exact h

/-- A routine whose every step keeps the invariant. -/
theorem run {r : Routine σ ρ} {C : Around σ ρ} {P : Books σ κ → Except Payload ρ → Prop}
    (h : ∀ b' pc (d : Deed σ), b ≤ b' → d.moment.self = t → d.left = C.whole (perform r pc pure) →
      I b' d.state → (r.step d.moment d.state pc).Within (I (b'.next d)) fun s x => ∃ notes,
        b'.notes <+: notes ∧ I ⟨d :: b'.past, notes⟩ s ∧ P ⟨d :: b'.past, notes⟩ (.ok x)) :
    (run r).Upholds I t C P b :=
  fun b' pc' hamid d hself hleft hI => h b' pc' d hamid.le hself hleft hI

/-! ### Steps that keep the invariant by what they do to the state -/

section

variable {R : σ → σ → Prop}

theorem run_respects {r : Routine σ ρ} {C : Around σ ρ} {P : Books σ κ → Except Payload ρ → Prop}
    (hR : ∀ b (d : Deed σ) s s', I b s → R s s' → I (b.next d) s') (h : r.Respects R)
    (hP : ∀ b' x, b ≤ b' → P b' (.ok x)) : (Program.run r).Upholds I t C P b := by
  refine run fun b' pc d hle _ _ hI => ?_
  have hstep := h d.moment d.state pc
  cases hr : r.step d.moment d.state pc with
  | blocked => trivial
  | going s pc' =>
    rw [hr] at hstep
    exact hR b' d _ s hI hstep
  | finished s x =>
    rw [hr] at hstep
    exact ⟨b'.notes, List.prefix_refl _, hR b' d _ s hI hstep, hP _ x (hle.trans (le_next b' d))⟩

theorem of_respects (hR : ∀ b (d : Deed σ) s s', I b s → R s s' → I (b.next d) s')
    (h : p.Respects R) (hP : ∀ b' r, b ≤ b' → P b' r) : p.Upholds I t C P b := by
  induction p generalizing t b with
  | pure x => exact hP b _ (le_refl b)
  | unwind payload => exact hP b _ (le_refl b)
  | perform r pc k ih =>
    intro b' pc' hamid d hself hleft hI
    have hstep := h.1 d.moment d.state pc'
    cases hr : r.step d.moment d.state pc' with
    | blocked => trivial
    | going s pc'' =>
      rw [hr] at hstep
      exact hR b' d _ s hI hstep
    | finished s x =>
      rw [hr] at hstep
      refine ⟨b'.notes, List.prefix_refl _, hR b' d _ s hI hstep, ih x (h.2 x) fun b'' r hle => ?_⟩
      exact hP b'' r ((hamid.le.trans (le_next b' d)).trans hle)
  | fork opening again k ihopening ihagain ih =>
    intro b' haside d hself hleft hI
    refine ⟨fun b'' _ => ihopening h.1 fun _ _ _ => trivial,
      fun b'' _ => ihagain h.2.1 fun _ _ _ => trivial,
      ih d.fresh (h.2.2 d.fresh) fun b'' r hle => ?_⟩
    exact hP b'' r ((haside.le.trans (le_next b' d)).trans hle)

end

/-! ### Steps -/

theorem aside {notes : List κ} (h : p.Upholds I t C P b) (hP : Lasts P) (hne : d.moment.self ≠ t)
    (hnotes : b.notes <+: notes) : p.Upholds I t C P ⟨d :: b.past, notes⟩ := by
  cases p with
  | pure x => exact hP b _ _ (le_noted d hnotes) h
  | unwind payload => exact hP b _ _ (le_noted d hnotes) h
  | perform r pc k =>
    exact fun b' pc' hamid => h b' pc' ((Amid.aside d .start hne hnotes).trans hamid)
  | fork opening again k =>
    exact fun b' haside => h b' ((Aside.aside d .start hne hnotes).trans haside)

theorem going (h : p.Upholds I t C P b) (hself : d.moment.self = t) (hleft : d.left = C.whole p)
    (hI : I b d.state) (hs : p.step d.moment d.state = .going s q) :
    ∃ notes, b.notes <+: notes ∧ I ⟨d :: b.past, notes⟩ s ∧
      q.Upholds I t C P ⟨d :: b.past, notes⟩ := by
  obtain ⟨ρ, r, pc, k, rfl⟩ := exists_perform hs
  have hstep := h b pc .start d hself hleft hI
  simp only [step] at hs
  cases hr : r.step d.moment d.state pc with
  | blocked => simp [hr] at hs
  | going s' pc' =>
    rw [hr] at hstep
    simp only [hr, Outcome.going.injEq] at hs
    obtain ⟨rfl, rfl⟩ := hs
    refine ⟨b.notes, List.prefix_refl _, hstep, fun b' pc'' hamid => h b' pc'' ?_⟩
    exact (Amid.going d .start hself hleft hr).trans hamid
  | finished s' x =>
    rw [hr] at hstep
    simp only [hr, Outcome.going.injEq] at hs
    obtain ⟨rfl, rfl⟩ := hs
    exact hstep

theorem forking {opening again : Program σ Bool} {next : ThreadId → Program σ α}
    (h : p.Upholds I t C P b) (hself : d.moment.self = t) (hleft : d.left = C.whole p)
    (hI : I b d.state) (hs : p.step d.moment d.state = .forking opening again next) :
    (∀ b', b.next d ≤ b' → opening.Upholds I d.fresh .turn (fun _ _ => True) b') ∧
      (∀ b', b.next d ≤ b' → again.Upholds I d.fresh .turn (fun _ _ => True) b') ∧
      (next d.fresh).Upholds I t C P (b.next d) := by
  cases p with
  | fork opening' again' k =>
    obtain ⟨rfl, rfl, rfl⟩ := Outcome.forking.inj hs
    exact h b .start d hself hleft hI
  | perform r pc k => exact absurd hs (perform_ne_forking r pc k _ _ _ _ _)
  | _ => cases hs

theorem ended {r : Except Payload α} (h : p.Upholds I t C P b) (hr : p.Ended r) : P b r := by
  cases p with
  | pure x => cases hr; exact h
  | unwind payload => cases hr; exact h
  | _ => cases hr

/-! ### What has been performed -/

theorem along_of_amid {p₀ : Program σ α} {r : Routine σ ρ} {pc pc' : r.Pc} {k : ρ → Program σ α}
    {during before : List (Deed σ)} (hpast : b.past = during ++ before)
    (halong : p₀.Along C t during (.perform r pc k))
    (h : Amid t r (fun pc => C.whole (.perform r pc k)) b pc b' pc') :
    ∃ during', b'.past = during' ++ before ∧ p₀.Along C t during' (.perform r pc' k) := by
  induction h with
  | start => exact ⟨during, hpast, halong⟩
  | aside d _ hne _ ih =>
    obtain ⟨during', hpast', halong'⟩ := ih
    exact ⟨d :: during', congrArg (d :: ·) hpast', .aside d halong' hne⟩
  | @going _ _ _ s d _ hself hleft hstep ih =>
    obtain ⟨during', hpast', halong'⟩ := ih
    refine ⟨d :: during', congrArg (d :: ·) hpast', .going (s := s) d halong' hself hleft ?_⟩
    simp only [step, hstep]

theorem along_of_aside {p₀ q : Program σ α} {during before : List (Deed σ)}
    (hpast : b.past = during ++ before) (halong : p₀.Along C t during q) (h : Aside t b b') :
    ∃ during', b'.past = during' ++ before ∧ p₀.Along C t during' q := by
  induction h with
  | start => exact ⟨during, hpast, halong⟩
  | aside d _ hne _ ih =>
    obtain ⟨during', hpast', halong'⟩ := ih
    exact ⟨d :: during', congrArg (d :: ·) hpast', .aside d halong' hne⟩

theorem recorded_from {p₀ : Program σ α} (during : List (Deed σ)) {before : List (Deed σ)}
    (hpast : b.past = during ++ before) (halong : p₀.Along C t during p)
    (h : p.Upholds I t C (fun b' r => Performed b'.past t C p₀ r → P b' r) b) :
    p.Upholds I t C P b := by
  induction p generalizing t b during with
  | pure x => exact h ⟨_, [], during, before, hpast, halong, rfl⟩
  | unwind payload => exact h ⟨_, [], during, before, hpast, halong, rfl⟩
  | perform r pc k ih =>
    intro b' pc' hamid d hself hleft hI
    obtain ⟨during', hpast', halong'⟩ := along_of_amid hpast halong hamid
    have hstep := h b' pc' hamid d hself hleft hI
    cases hr : r.step d.moment d.state pc' with
    | blocked => trivial
    | going s pc'' =>
      rw [hr] at hstep
      exact hstep
    | finished s x =>
      rw [hr] at hstep
      obtain ⟨notes, hnotes, hI', hk⟩ := hstep
      refine ⟨notes, hnotes, hI', ih x (d :: during') (congrArg (d :: ·) hpast') ?_ hk⟩
      refine .going (s := s) d halong' hself hleft ?_
      simp only [step, hr]
  | fork opening again k _ _ ih =>
    intro b' haside d hself hleft hI
    obtain ⟨during', hpast', halong'⟩ := along_of_aside hpast halong haside
    obtain ⟨hopening, hagain, hk⟩ := h b' haside d hself hleft hI
    refine ⟨hopening, hagain, ih d.fresh (d :: during') (congrArg (d :: ·) hpast') ?_ hk⟩
    exact .forking d halong' hself hleft rfl

/-- At its end the program has been performed. -/
theorem recorded (h : p.Upholds I t C (fun b' r => Performed b'.past t C p r → P b' r) b) :
    p.Upholds I t C P b :=
  recorded_from [] rfl .start h

end Upholds
end Program

/-! ### Machines -/

open Books Program

/-- An invariant that a further deed by itself does not end. -/
def Endures (I : Books σ κ → σ → Prop) : Prop := ∀ b (d : Deed σ) s, I b s → I (b.next d) s

/-- The invariant holds, and the programs of all threads uphold it, but for what some threads have
left to do of their turns. -/
structure Chronicle.Lawful (I : Books σ κ → σ → Prop) (but : ThreadId → Prop) (c : Chronicle σ)
    (notes : List κ) : Prop where
  holds : I ⟨c.past, notes⟩ c.machine.shared
  rest (t : ThreadId) (left again : Program σ Bool) : ¬ but t →
    c.machine.threads[t]? = some ⟨some left, again⟩ →
    left.Upholds I t .turn (fun _ _ => True) ⟨c.past, notes⟩
  again (t : ThreadId) (thread : Thread σ) (b : Books σ κ) : c.machine.threads[t]? = some thread →
    ⟨c.past, notes⟩ ≤ b → thread.again.Upholds I t .turn (fun _ _ => True) b

namespace Chronicle.Lawful

variable {I : Books σ κ → σ → Prop} {but : ThreadId → Prop} {c c' : Chronicle σ}
  {notes notes' : List κ} {t u : ThreadId} {left again : Program σ Bool} {d : Deed σ} {s : σ}
  {o : Option (Program σ Bool)}

theorem lasts_true : Lasts fun (_ : Books σ κ) (_ : Except Payload α) => True :=
  fun _ _ _ _ => id

theorem tick (h : c.Lawful I but notes) (later : Instant) :
    Lawful I but { c with machine := c.machine.tick later } notes :=
  ⟨h.holds, h.rest, h.again⟩

/-- One thread has done something, after which it has `o` left to do. -/
theorem put (h : c.Lawful I but notes) (ht : c.machine.threads[t]? = some ⟨some left, again⟩)
    (hself : d.moment.self = t) (hnotes : notes <+: notes') (hI : I ⟨d :: c.past, notes'⟩ s)
    (ho : ∀ q, o = some q → ¬ but t →
      q.Upholds I t .turn (fun _ _ => True) ⟨d :: c.past, notes'⟩) :
    Lawful I but ⟨{ c.machine with
      shared := s, threads := c.machine.threads.setIfInBounds t ⟨o, again⟩ }, d :: c.past⟩
      notes' := by
  have hle : (⟨c.past, notes⟩ : Books σ κ) ≤ ⟨d :: c.past, notes'⟩ := le_noted d hnotes
  refine ⟨hI, fun u q again' hu hq => ?_, fun u thread b hthread hb => ?_⟩
  · by_cases htu : t = u
    · subst htu
      obtain ⟨ho', -⟩ := Thread.mk.inj (Option.some.inj ((Machine.threads_set ht).symm.trans hq))
      exact ho q ho' hu
    · have hsame := (Machine.threads_set_ne htu).symm.trans hq
      exact (h.rest u q again' hu hsame).aside lasts_true (hself ▸ htu) hnotes
  · by_cases htu : t = u
    · subst htu
      obtain rfl := Option.some.inj ((Machine.threads_set ht).symm.trans hthread)
      exact h.again t ⟨some left, again⟩ b ht (hle.trans hb)
    · exact h.again u thread b ((Machine.threads_set_ne htu).symm.trans hthread) (hle.trans hb)

/-- A thread has been started. -/
theorem push {opening again : Program σ Bool} {n : ThreadId} (h : c.Lawful I but notes)
    (hn : c.machine.threads.size = n)
    (hopening : ∀ b, ⟨c.past, notes⟩ ≤ b → opening.Upholds I n .turn (fun _ _ => True) b)
    (hagain : ∀ b, ⟨c.past, notes⟩ ≤ b → again.Upholds I n .turn (fun _ _ => True) b) :
    Lawful I but { c with machine := { c.machine with
      threads := c.machine.threads.push ⟨some opening, again⟩ } } notes := by
  subst hn
  refine ⟨h.holds, fun u q again' hu hq => ?_, fun u thread b hthread hb => ?_⟩
  · rw [Array.getElem?_push] at hq
    split at hq
    · next hsize =>
      obtain ⟨hsome, rfl⟩ := Thread.mk.inj (Option.some.inj hq)
      obtain rfl := Option.some.inj hsome
      exact hsize ▸ hopening _ (le_refl _)
    · exact h.rest u q again' hu hq
  · rw [Array.getElem?_push] at hthread
    split at hthread
    · next hsize =>
      obtain rfl := Option.some.inj hthread
      exact hsize ▸ hagain b hb
    · exact h.again u thread b hthread hb

/-- A step of a thread that starts another one. -/
theorem fork {opening again' : Program σ Bool} {q : Program σ Bool} (h : c.Lawful I but notes)
    (hI : Endures I) (ht : c.machine.threads[t]? = some ⟨some left, again⟩)
    (hself : d.moment.self = t) (hfresh : d.fresh = c.machine.threads.size)
    (hopening : ∀ b, Books.next ⟨c.past, notes⟩ d ≤ b →
      opening.Upholds I d.fresh .turn (fun _ _ => True) b)
    (hagain : ∀ b, Books.next ⟨c.past, notes⟩ d ≤ b →
      again'.Upholds I d.fresh .turn (fun _ _ => True) b)
    (hq : ¬ but t → q.Upholds I t .turn (fun _ _ => True) (Books.next ⟨c.past, notes⟩ d)) :
    Lawful I but ⟨{ c.machine with
      threads := (c.machine.threads.setIfInBounds t ⟨some q, again⟩).push ⟨some opening, again'⟩ },
      d :: c.past⟩ notes :=
  (h.put (o := some q) ht hself (List.prefix_refl _) (hI _ d _ h.holds)
    fun _ hsome hbut => Option.some.inj hsome ▸ hq hbut).push
    (Array.size_setIfInBounds.trans hfresh.symm) hopening hagain

/-- A step of a thread. -/
theorem step (h : c.Lawful I but notes) (hI : Endures I) (ht : ¬ but t) {stray : Bool} {pick : Nat}
    (hm : c.move (.step t stray pick) = some c') :
    ∃ notes', notes <+: notes' ∧ c'.Lawful I but notes' := by
  obtain ⟨left, again, hthread, hs, hpast⟩ := Chronicle.move_step hm
  obtain ⟨machine', past'⟩ := c'
  obtain rfl : past' = _ := hpast
  have hleft := h.rest t left again ht hthread
  have hkept (d : Deed σ) : I ⟨d :: c.past, notes⟩ c.machine.shared := hI _ d _ h.holds
  simp only [Machine.step, hthread, Bind.bind, Option.bind] at hs
  split at hs
  · cases hs
  · obtain rfl := Option.some.inj hs
    refine ⟨notes, List.prefix_refl _, h.put hthread rfl (List.prefix_refl _) (hkept _) ?_⟩
    intro q hq _
    obtain rfl := Option.some.inj hq
    exact h.again t _ _ hthread (le_next _ _)
  · obtain rfl := Option.some.inj hs
    exact ⟨notes, List.prefix_refl _, h.put hthread rfl (List.prefix_refl _) (hkept _)
      fun q hq => by cases hq⟩
  · next hgoing =>
    obtain rfl := Option.some.inj hs
    obtain ⟨notes', hnotes, hI', hq⟩ := hleft.going (d := ⟨_, _, _, left⟩) rfl rfl h.holds hgoing
    exact ⟨notes', hnotes, h.put hthread rfl hnotes hI' fun q hsome _ => Option.some.inj hsome ▸ hq⟩
  · next hfork =>
    obtain rfl := Option.some.inj hs
    obtain ⟨hopening, hagain, hnext⟩ := hleft.forking
      (d := ⟨_, _, c.machine.threads.size, left⟩) rfl rfl h.holds hfork
    exact ⟨notes, List.prefix_refl _, h.fork hI hthread rfl rfl hopening hagain fun _ => hnext⟩

section

variable {p q : Program σ α} {C : Around σ α} {P : Books σ κ → Except Payload α → Prop}
  {past : List (Deed σ)} {stray : Bool} {pick : Nat}

/-- A step of a thread in a part of its program that is known to uphold the invariant. -/
theorem step_within (h : c.Lawful I but notes) (ht : but t)
    (hp : p.Upholds I t C P ⟨c.past, notes⟩) (hm : c.move (.step t stray pick) = some c')
    (hpast : c'.past = d :: past) (hleft : d.left = C.whole p)
    (hs : p.step d.moment d.state = .going s q) :
    ∃ notes', c'.Lawful I but notes' ∧ q.Upholds I t C P ⟨c'.past, notes'⟩ := by
  obtain ⟨left, again, hthread, hstep, hpast'⟩ := Chronicle.move_step hm
  obtain ⟨machine', past'⟩ := c'
  obtain rfl : past' = _ := hpast'
  obtain ⟨rfl, rfl⟩ := List.cons.inj hpast
  obtain rfl : left = C.whole p := hleft
  have hmachine := (Machine.step_of_going hthread (step_around C.perform hs)).symm.trans hstep
  obtain rfl := Option.some.inj hmachine
  obtain ⟨notes', hnotes, hI', hq⟩ := hp.going rfl rfl h.holds hs
  exact ⟨notes', h.put hthread rfl hnotes hI' fun _ _ hbut => absurd ht hbut, hq⟩

theorem fork_within {opening again' : Program σ Bool} {next : ThreadId → Program σ α}
    (h : c.Lawful I but notes) (hI : Endures I) (ht : but t)
    (hp : p.Upholds I t C P ⟨c.past, notes⟩) (hm : c.move (.step t stray pick) = some c')
    (hpast : c'.past = d :: past) (hleft : d.left = C.whole p)
    (hs : p.step d.moment d.state = .forking opening again' next) :
    ∃ notes', c'.Lawful I but notes' ∧ (next d.fresh).Upholds I t C P ⟨c'.past, notes'⟩ := by
  obtain ⟨left, again, hthread, hstep, hpast'⟩ := Chronicle.move_step hm
  obtain ⟨machine', past'⟩ := c'
  obtain rfl : past' = _ := hpast'
  obtain ⟨rfl, rfl⟩ := List.cons.inj hpast
  obtain rfl : left = C.whole p := hleft
  obtain ⟨hopening, hagain, hnext⟩ := hp.forking rfl rfl h.holds hs
  have hwhole : (C.whole p).step ⟨t, c.machine.now, stray, pick⟩ c.machine.shared =
      .forking opening again' fun u => C.whole (next u) := by
    cases p with
    | fork opening again k =>
      obtain ⟨rfl, rfl, rfl⟩ := Outcome.forking.inj hs
      rw [C.fork]
      rfl
    | perform r pc k => exact absurd hs (perform_ne_forking r pc k _ _ _ _ _)
    | _ => cases hs
  simp only [Machine.step, hthread, Bind.bind, Option.bind, hwhole] at hstep
  obtain rfl := Option.some.inj hstep
  exact ⟨notes, h.fork hI hthread rfl rfl hopening hagain fun hbut => absurd ht hbut, hnext⟩

end

end Chronicle.Lawful

namespace Chronicle

variable {I : Books σ κ → σ → Prop} {start c : Chronicle σ} {notes : List κ} {t : ThreadId}
  {p q : Program σ α} {C : Around σ α} {P : Books σ κ → Except Payload α → Prop}

theorem lawful_of_reachable (hI : Endures I) (hstart : start.Lawful I (fun _ => False) notes)
    (hr : Reachable move (· = start) c) : ∃ notes, c.Lawful I (fun _ => False) notes := by
  refine Reachable.keeps (P := fun c => ∃ notes, c.Lawful I (fun _ => False) notes) ?_ hr
    fun _ hs => hs ▸ ⟨notes, hstart⟩
  rintro c m c' ⟨notes, h⟩ hm
  cases m with
  | tick later => exact move_tick hm ▸ ⟨notes, h.tick later⟩
  | step t stray pick =>
    obtain ⟨notes', -, h'⟩ := h.step hI id hm
    exact ⟨notes', h'⟩

/-- Where a thread has come in a program, what is left of the program upholds the invariant. -/
theorem upholds_along (hI : Endures I) (hstart : start.Lawful I (fun _ => False) notes)
    (hnew : start.past = []) (hp : ∀ b, p.Upholds I t C P b) (hP : Lasts P)
    (hr : Reachable move (· = start) c) {during before : List (Deed σ)}
    (hpast : c.past = during ++ before) (halong : p.Along C t during q) :
    ∃ notes, c.Lawful I (· = t) notes ∧ q.Upholds I t C P ⟨c.past, notes⟩ := by
  have hopen {c : Chronicle σ} (hr : Reachable move (· = start) c) :
      ∃ notes, c.Lawful I (· = t) notes ∧ p.Upholds I t C P ⟨c.past, notes⟩ := by
    obtain ⟨notes, h⟩ := lawful_of_reachable hI hstart hr
    exact ⟨notes, ⟨h.holds, fun u left again _ => h.rest u left again id, h.again⟩, hp _⟩
  induction hr generalizing during q with
  | @start c hc =>
    subst hc
    rw [hnew] at hpast
    obtain ⟨rfl, -⟩ := List.append_eq_nil_iff.mp hpast.symm
    cases halong
    exact hopen (.refl _)
  | @move c c' m hr hm ih =>
    cases m with
    | tick later =>
      obtain rfl := move_tick hm
      obtain ⟨notes, h, hq⟩ := ih hpast halong
      exact ⟨notes, h.tick later, hq⟩
    | step u stray pick =>
      obtain ⟨left, again, -, -, hdeed⟩ := move_step hm
      cases halong with
      | start => exact hopen (.move _ hr hm)
      | @aside q past d halong hne =>
        obtain ⟨rfl, hpast'⟩ := List.cons.inj (hdeed.symm.trans hpast)
        obtain ⟨notes, h, hq⟩ := ih hpast' halong
        obtain ⟨notes', hnotes, h'⟩ := h.step hI hne hm
        exact ⟨notes', h', hdeed ▸ hq.aside hP hne hnotes⟩
      | @going q q' past s d halong hself hleft hs =>
        obtain ⟨rfl, hpast'⟩ := List.cons.inj (hdeed.symm.trans hpast)
        obtain ⟨notes, h, hq⟩ := ih hpast' halong
        obtain rfl : u = t := hself
        exact h.step_within rfl hq hm hdeed hleft hs
      | @forking q past opening again' next d halong hself hleft hs =>
        obtain ⟨rfl, hpast'⟩ := List.cons.inj (hdeed.symm.trans hpast)
        obtain ⟨notes, h, hq⟩ := ih hpast' halong
        obtain rfl : u = t := hself
        exact h.fork_within hI rfl hq hm hdeed hleft hs

/-- Whoever has performed a program, wherever it stood, has a result that the program promises. -/
theorem promised_of_performed (hI : Endures I) (hstart : start.Lawful I (fun _ => False) notes)
    (hnew : start.past = []) (hp : ∀ b, p.Upholds I t C P b) (hP : Lasts P)
    (hr : Reachable move (· = start) c) {r : Except Payload α} (h : Performed c.past t C p r) :
    ∃ b : Books σ κ, b.past <:+ c.past ∧ P b r := by
  obtain ⟨q, later, during, before, hpast, halong, hend⟩ := h
  have hnow {c : Chronicle σ} (hr : Reachable move (· = start) c)
      (hpast : c.past = during ++ before) : ∃ b : Books σ κ, b.past <:+ c.past ∧ P b r := by
    obtain ⟨notes, -, hq⟩ := upholds_along hI hstart hnew hp hP hr hpast halong
    exact ⟨_, List.suffix_refl _, hq.ended hend⟩
  induction hr generalizing later with
  | @start c hc =>
    subst hc
    rw [hnew] at hpast
    obtain ⟨hfront, rfl⟩ := List.append_eq_nil_iff.mp hpast.symm
    obtain ⟨rfl, rfl⟩ := List.append_eq_nil_iff.mp hfront
    exact hnow (.refl _) hnew
  | @move c c' m hr hm ih =>
    cases m with
    | tick later' =>
      obtain rfl := move_tick hm
      exact ih later hpast
    | step u stray pick =>
      obtain ⟨left, again, -, -, hdeed⟩ := move_step hm
      cases later with
      | nil => exact hnow (.move _ hr hm) hpast
      | cons d later =>
        obtain ⟨-, hpast'⟩ := List.cons.inj (hdeed.symm.trans hpast)
        obtain ⟨b, hb, hP⟩ := ih later hpast'
        exact ⟨b, hb.trans (past_move hm), hP⟩

end Chronicle
end CrossCall
