import CrossCall.Proofs.Worker.Turn

/-! What a move of the scene does, told by the thread whose move it is. A thread that hands in an
item stays with it until it has the answer, and accepted is what a thread has just sent. -/

namespace CrossCall.Worker

variable {ι : Type}

namespace DrainStand

/-- The operation that the running item is in. -/
def inside : DrainStand ι → Option (Stand ι)
  | .running _ inside => some inside
  | _ => none

def item? : DrainStand ι → Option ι
  | .running item _ => some item
  | _ => none

end DrainStand

namespace Turn

variable {m : Moment} {w w' : Worker ι} {d d' : Deeds ι} {x x' : Stand ι} {item : ι}
  {pc : EnqueuePc}

/-- The item that is sent in this turn, if there is one, is all that is accepted in it. -/
theorem sends (h : Turn m w d x w' x' d') :
    (∃ item, x = .enqueuing item .sending ∧ x' = .enqueuing item .releasing ∧
      d'.accepted = d.accepted ++ [item]) ∨
      d'.accepted = d.accepted ∧ ∀ item, x' ≠ .enqueuing item .releasing := by
  cases h with
  | send item he => exact .inl ⟨item, rfl, rfl, rfl⟩
  | close =>
    refine .inr ⟨rfl, fun item => ?_⟩
    split <;> exact nofun
  | _ => exact .inr ⟨rfl, nofun⟩

theorem of_enqueuing (h : Turn m w d x w' x' d') (hx' : x' = .enqueuing item pc) :
    ∃ pc', x = .enqueuing item pc' := by
  cases h with
  | lockEnqueue | letIn | fail | send =>
    obtain ⟨rfl, -⟩ := Stand.enqueuing.inj hx'
    exact ⟨_, rfl⟩
  | close => split at hx' <;> cases hx'
  | _ => cases hx'

/-- With its item a thread is either still on the way, or it is idle again with an answer. -/
theorem enqueuing (h : Turn m w d x w' x' d') (hx : x = .enqueuing item pc) :
    (∃ pc', pc ≠ .releasing ∧ x' = .enqueuing item pc') ∨
      x' = .idle ∧ d'.accepted = d.accepted ∧ (pc = .releasing ∨ pc = .rollingBack ∨
        pc = .checking ∧ w.isOpen = false) := by
  cases h with
  | lockEnqueue | letIn | fail | send =>
    obtain ⟨rfl, rfl⟩ := Stand.enqueuing.inj hx
    exact .inl ⟨_, nofun, rfl⟩
  | refuse item ho =>
    obtain ⟨rfl, rfl⟩ := Stand.enqueuing.inj hx
    exact .inr ⟨rfl, rfl, .inr (.inr ⟨rfl, ho⟩)⟩
  | rollBack =>
    obtain ⟨rfl, rfl⟩ := Stand.enqueuing.inj hx
    exact .inr ⟨rfl, rfl, .inr (.inl rfl)⟩
  | release =>
    obtain ⟨rfl, rfl⟩ := Stand.enqueuing.inj hx
    exact .inr ⟨rfl, rfl, .inl rfl⟩
  | _ => cases hx

end Turn

namespace Scene

variable {s t : Scene ι} {m : Move ι} {u v : ThreadId} {item : ι}

inductive Effect (s t : Scene ι) : Move ι → Prop where
  | begin (u : ThreadId) (operation : Operation ι) : s.threads[u]? = some .idle →
      t = { s with threads := s.threads.set u operation.stand } →
      Effect s t (.begin u operation)
  | step (u : ThreadId) (x x' : Stand ι) (worker : Worker ι) (deeds : Deeds ι) :
      s.threads[u]? = some x → Turn ⟨u, 0, false, 0⟩ s.worker s.deeds x worker x' deeds →
      t = { s with worker, threads := s.threads.set u x', deeds } → Effect s t (.step u)
  | beginInside (item : ι) (operation : Operation ι) : s.drain = .running item .idle →
      t = { s with drain := .running item operation.stand } → Effect s t (.beginInside operation)
  | stepInside (item : ι) (x x' : Stand ι) (worker : Worker ι) (deeds : Deeds ι) :
      s.drain = .running item x →
      Turn ⟨s.worker.thread, 0, false, 0⟩ s.worker s.deeds x worker x' deeds →
      t = { s with worker, drain := .running item x', deeds } → Effect s t .stepInside
  | finish (item : ι) (unwound : Bool) : s.drain = .running item .idle →
      t = { s with
        drain := .charging unwound
        deeds := { s.deeds with ended := s.deeds.ended ++ [(item, unwound)] } } →
      Effect s t (.finish unwound)
  | take (item : ι) (rest : List ι) : s.drain = .receiving → s.worker.items = item :: rest →
      t = { s with
        worker := { s.worker with items := rest }
        drain := .running item .idle
        deeds := { s.deeds with started := s.deeds.started ++ [item] } } → Effect s t .drain
  /-- The worker's own thread goes on and takes nothing. -/
  | drain (worker : Worker ι) (drain : DrainStand ι) : s.drain.item? = none → drain.inside = none →
      worker.thread = s.worker.thread → t = { s with worker, drain } → Effect s t .drain

theorem effect_of_drain (h : s.stepDrain s.drain = some t) : s.Effect t .drain := by
  generalize hd : s.drain = drain at h
  cases drain with
  | receiving =>
    simp only [stepDrain] at h
    cases hi : s.worker.items with
    | nil =>
      cases ho : s.worker.isOpen with
      | true => simp [receive, hi, ho] at h
      | false =>
        simp only [receive, hi, ho, Bool.false_eq_true, if_false, Option.some.injEq] at h
        exact .drain s.worker .finishing (by rw [hd]; rfl) rfl rfl h.symm
    | cons item rest =>
      simp only [receive, hi, Option.some.injEq] at h
      exact .take item rest hd hi h.symm
  | running item inside => cases h
  | charging unwound =>
    refine .drain (s.worker.charge unwound) .settling (by rw [hd]; rfl) rfl ?_
      (Option.some.inj h).symm
    cases unwound <;> rfl
  | settling =>
    exact .drain s.worker.settle .receiving (by rw [hd]; rfl) rfl rfl (Option.some.inj h).symm
  | finishing =>
    exact .drain s.worker.finish .over (by rw [hd]; rfl) rfl rfl (Option.some.inj h).symm
  | «over» => cases h

theorem effect_of_move (h : s.move m = some t) : s.Effect t m := by
  cases m with
  | begin u operation =>
    simp only [move] at h
    split at h
    · next hidle => exact .begin u operation hidle (Option.some.inj h).symm
    · cases h
  | step u =>
    obtain ⟨x, hx, h⟩ := Option.bind_eq_some_iff.mp h
    obtain ⟨⟨w, x', d⟩, hstep, h⟩ := Option.bind_eq_some_iff.mp h
    exact .step u x x' w d hx (stepStand_cases hstep) (Option.some.inj h).symm
  | beginInside operation =>
    simp only [move] at h
    split at h
    · next item hd => exact .beginInside item operation hd (Option.some.inj h).symm
    · cases h
  | stepInside =>
    simp only [move] at h
    split at h
    · next item x hd =>
      obtain ⟨⟨w, x', d⟩, hstep, h⟩ := Option.bind_eq_some_iff.mp h
      exact .stepInside item x x' w d hd (stepStand_cases hstep) (Option.some.inj h).symm
    · cases h
  | finish unwound =>
    simp only [move] at h
    split at h
    · next item hd => exact .finish item unwound hd (Option.some.inj h).symm
    · cases h
  | drain => exact effect_of_drain h

/-- A thread is elsewhere after a move only if it has begun an operation or taken a turn in one. -/
theorem Effect.threads (h : s.Effect t m) (u : ThreadId) :
    t.threads[u]? = s.threads[u]? ∨
      (∃ operation, m = .begin u operation ∧ s.threads[u]? = some .idle ∧
        t.threads[u]? = some operation.stand) ∨
      m = .step u ∧ ∃ x x', s.threads[u]? = some x ∧ t.threads[u]? = some x' ∧
        Turn ⟨u, 0, false, 0⟩ s.worker s.deeds x t.worker x' t.deeds := by
  cases h with
  | begin v operation hidle ht =>
    subst ht
    by_cases hvu : v = u
    · subst hvu
      exact .inr (.inl ⟨operation, rfl, hidle, getElem?_set_of_some hidle _⟩)
    · exact .inl (List.getElem?_set_ne hvu)
  | step v x x' worker deeds hx hturn ht =>
    subst ht
    by_cases hvu : v = u
    · subst hvu
      exact .inr (.inr ⟨rfl, x, x', hx, getElem?_set_of_some hx _, hturn⟩)
    · exact .inl (List.getElem?_set_ne hvu)
  | beginInside item operation hd ht | stepInside item x x' worker deeds hd hturn ht
  | finish item unwound hd ht | take item rest hd hi ht
  | drain worker drain hd hinside hthread ht =>
    subst ht
    exact .inl rfl

/-- Accepted is what a thread, or the item that runs, has just sent. -/
theorem Effect.accepted (h : s.Effect t m) :
    t.deeds.accepted = s.deeds.accepted ∨
      ∃ item, t.deeds.accepted = s.deeds.accepted ++ [item] ∧
        ((∃ u : ThreadId, s.threads[u]? = some (.enqueuing item .sending) ∧
          t.threads[u]? = some (.enqueuing item .releasing)) ∨
          s.drain.inside = some (.enqueuing item .sending)) := by
  cases h with
  | step u x x' worker deeds hx hturn ht =>
    subst ht
    rcases hturn.sends with ⟨item, rfl, rfl, ha⟩ | ⟨ha, -⟩
    · exact .inr ⟨item, ha, .inl ⟨u, hx, getElem?_set_of_some hx _⟩⟩
    · exact .inl ha
  | stepInside item x x' worker deeds hd hturn ht =>
    subst ht
    rcases hturn.sends with ⟨item, rfl, rfl, ha⟩ | ⟨ha, -⟩
    · exact .inr ⟨item, ha, .inr (by rw [hd]; rfl)⟩
    · exact .inl ha
  | begin u operation hidle ht | beginInside item operation hd ht | finish item unwound hd ht
  | take item rest hd hi ht | drain worker drain hd hinside hthread ht =>
    subst ht
    exact .inl rfl

/-- The item that runs is in an operation only if it has begun it. -/
theorem Effect.inside (h : s.Effect t m) {x' : Stand ι} (hx' : t.drain.inside = some x') :
    x' = .idle ∨ s.drain.inside = some x' ∨
      (∃ operation, m = .beginInside operation ∧ x' = operation.stand) ∨
      m = .stepInside ∧ ∃ x, s.drain.inside = some x ∧
        Turn ⟨s.worker.thread, 0, false, 0⟩ s.worker s.deeds x t.worker x' t.deeds := by
  cases h with
  | begin u operation hidle ht | step u x x' worker deeds hx hturn ht =>
    subst ht
    exact .inr (.inl hx')
  | beginInside item operation hd ht =>
    subst ht
    exact .inr (.inr (.inl ⟨operation, rfl, (Option.some.inj hx').symm⟩))
  | stepInside item x x' worker deeds hd hturn ht =>
    subst ht
    obtain rfl := Option.some.inj hx'
    exact .inr (.inr (.inr ⟨rfl, x, by rw [hd]; rfl, hturn⟩))
  | finish item unwound hd ht =>
    subst ht
    cases hx'
  | take item rest hd hi ht =>
    subst ht
    exact .inl (Option.some.inj hx').symm
  | drain worker drain hd hinside hthread ht =>
    subst ht
    rw [hinside] at hx'
    cases hx'

/-- Only the item that runs ends, and only when it is said to. -/
theorem Effect.ended (h : s.Effect t m) :
    t.deeds.ended = s.deeds.ended ∨ ∃ item unwound, m = .finish unwound ∧
      s.drain = .running item .idle ∧ t.deeds.ended = s.deeds.ended ++ [(item, unwound)] := by
  cases h with
  | step u x x' worker deeds hx hturn ht =>
    subst ht
    exact .inl hturn.started.2
  | stepInside item x x' worker deeds hd hturn ht =>
    subst ht
    exact .inl hturn.started.2
  | finish item unwound hd ht =>
    subst ht
    exact .inr ⟨item, unwound, rfl, hd, rfl⟩
  | begin u operation hidle ht | beginInside item operation hd ht | take item rest hd hi ht
  | drain worker drain hd hinside hthread ht =>
    subst ht
    exact .inl rfl

/-- The step in which a thread has its answer. -/
theorem Effect.answered {pc : EnqueuePc} (h : s.Effect t (.step u))
    (hu : s.threads[u]? = some (.enqueuing item pc)) (hidle : t.threads[u]? = some .idle) :
    t.threads = s.threads.set u .idle ∧ t.drain = s.drain ∧
      t.deeds.accepted = s.deeds.accepted ∧ t.deeds.started = s.deeds.started := by
  cases h with
  | step u x x' worker deeds hx hturn ht =>
    subst ht
    obtain rfl := Option.some.inj (hu.symm.trans hx)
    obtain rfl := Option.some.inj (hidle.symm.trans (getElem?_set_of_some hu _))
    rcases hturn.enqueuing rfl with ⟨pc', -, hpc'⟩ | ⟨-, ha, -⟩
    · cases hpc'
    · exact ⟨rfl, rfl, ha, hturn.started.1⟩

end Scene
end CrossCall.Worker
