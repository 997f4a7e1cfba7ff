import CrossCall.Proofs.Call.Apart
import CrossCall.Proofs.Call.Outcome
import CrossCall.Proofs.Worker.Sound
import CrossCall.Worker.Callers

/-! What a move of callers at a worker comes to on its two sides. Call and worker move together where
a call is handed in, answered, taken and ended; every other move is one of the worker's scene or of
the calls' scene alone. So both sides are scenes of their own, and what holds of those holds here. -/

namespace CrossCall.Worker

variable {A V : Type}

def Job.call? : Job A → Option (Call.Envelope A)
  | .call envelope => some envelope
  | .posted _ => none

/-- A move of the worker's scene in which no call is handed in, answered, taken or ended. -/
structure Scene.Aside (s t : Scene (Job A)) (m : Move (Job A)) : Prop where
  move : s.move m = some t
  begins : ∀ u e, m ≠ .begin u (.enqueue (.call e))
  beginsInside : ∀ e, m ≠ .beginInside (.enqueue (.call e))
  answers : ∀ u e pc, m = .step u → s.threads[u]? = some (.enqueuing (.call e) pc) →
    t.threads[u]? ≠ some .idle
  ends : ∀ unwound e x, m = .finish unwound → s.drain ≠ .running (.call e) x
  takes : ∀ e x, m = .drain → t.drain ≠ .running (.call e) x

end CrossCall.Worker

namespace CrossCall.Worker.Callers

variable {A V : Type} {s t : Callers A V} {m : Move A V}

inductive Step (s t : Callers A V) : Prop where
  | call (u : ThreadId) (args : A) (bound : WaitBound) :
      s.office.move (.begin u (.enqueue (.call ⟨s.traffic.parties.length, args⟩))) =
        some t.office →
      s.traffic.move (.launch u args bound) = some t.traffic → Step s t
  | accept (u : ThreadId) (e : Call.Envelope A) :
      s.office.threads[u]? = some (.enqueuing (.call e) .releasing) →
      s.office.move (.step u) = some t.office → t.office.threads[u]? = some .idle →
      s.traffic.move (.accept e.call) = some t.traffic → Step s t
  | refuse (u : ThreadId) (e : Call.Envelope A) (pc : EnqueuePc) (between : Call.Scene A V) :
      pc ≠ .releasing → s.office.threads[u]? = some (.enqueuing (.call e) pc) →
      s.office.move (.step u) = some t.office → t.office.threads[u]? = some .idle →
      s.traffic.move (.drop (s.itemOf e.call)) = some between →
      between.move (.refuse e.call .closed) = some t.traffic → Step s t
  | take (e : Call.Envelope A) (x : Stand (Job A)) : s.office.move .drain = some t.office →
      t.office.drain = .running (.call e) x →
      s.traffic.move (.take t.office.worker.thread (s.itemOf e.call) false) = some t.traffic →
      Step s t
  /-- The worker ends to run a call, with the attempt at it. -/
  | ended (e : Call.Envelope A) (pick : Nat) : s.office.drain = .running (.call e) .idle →
      s.office.move (.finish false) = some t.office →
      s.traffic.move (.stepAttempt s.attempt pick) = some t.traffic →
      (∃ a, t.traffic.attempts[s.attempt]? = some a ∧ a.stand.isOver) → Step s t
  | aside (m : Worker.Move (Job A)) : s.office.Aside t.office m → t.traffic = s.traffic → Step s t
  /-- The attempt at the call that the worker runs goes on. -/
  | attempt (e : Call.Envelope A) (x : Stand (Job A)) (m : Call.Move A V) :
      s.office.drain = .running (.call e) x → t.office = s.office →
      s.traffic.move m = some t.traffic →
      ((∃ pick, m = .stepAttempt s.attempt pick) ∨ ∃ result, m = .finish s.attempt result) →
      (∀ a, t.traffic.attempts[s.attempt]? = some a → ¬ a.stand.isOver) → Step s t
  | caller (i : Nat) (stray : Bool) : t.office = s.office →
      s.traffic.move (.stepCaller i stray) = some t.traffic → Step s t
  | tick (later : Instant) : t.office = s.office → s.traffic.move (.tick later) = some t.traffic →
      Step s t

theorem handing_eq_some {u : ThreadId} {call : Nat} {accepted : Bool} :
    s.handing u = some (call, accepted) ↔
      ∃ e pc, s.office.threads[u]? = some (.enqueuing (.call e) pc) ∧ call = e.call ∧
        accepted = decide (pc = .releasing) := by
  unfold handing
  split
  · next e pc hu =>
    rw [hu]
    constructor
    · intro h
      obtain ⟨rfl, rfl⟩ := Prod.mk.inj (Option.some.inj h)
      exact ⟨e, pc, rfl, rfl, by cases pc <;> rfl⟩
    · rintro ⟨e', pc', hu', rfl, rfl⟩
      obtain ⟨hjob, rfl⟩ := Stand.enqueuing.inj (Option.some.inj hu')
      obtain rfl := Job.call.inj hjob
      cases pc <;> rfl
  · next hnot => exact ⟨nofun, fun ⟨e, pc, hu, _⟩ => absurd hu (hnot e pc)⟩

theorem step_of_step {u : ThreadId} (h : s.move (.step u) = some t) : s.Step t := by
  obtain ⟨office, hmove, h⟩ := Option.bind_eq_some_iff.mp h
  split at h
  · next call accepted hhanding hidle =>
    obtain ⟨traffic, hanswer, h⟩ := Option.bind_eq_some_iff.mp h
    obtain rfl := Option.some.inj h
    obtain ⟨e, pc, hu, rfl, hpc⟩ := handing_eq_some.mp hhanding
    cases accepted with
    | true =>
      obtain rfl := of_decide_eq_true hpc.symm
      exact .accept u e hu hmove hidle hanswer
    | false =>
      have hpc' : pc ≠ .releasing := of_decide_eq_false hpc.symm
      obtain ⟨between, hdrop, hrefuse⟩ := Option.bind_eq_some_iff.mp hanswer
      exact .refuse u e pc between hpc' hu hmove hidle hdrop hrefuse
  · next hnot =>
    obtain rfl := Option.some.inj h
    refine .aside (.step u) ⟨hmove, nofun, nofun, ?_, nofun, nofun⟩ rfl
    rintro v e pc hv hu hidle
    obtain rfl := Worker.Move.step.inj hv
    exact hnot _ _ (handing_eq_some.mpr ⟨e, pc, hu, rfl, rfl⟩) hidle

theorem runsCall_eq_true : s.runsCall = true ↔ ∃ e x, s.office.drain = .running (.call e) x := by
  unfold runsCall
  split
  · next e x hd => exact ⟨fun _ => ⟨e, x, hd⟩, fun _ => rfl⟩
  · next hnot => exact ⟨nofun, fun ⟨e, x, hd⟩ => absurd hd (hnot e x)⟩

theorem step_of_stepAttempt {pick : Nat} (h : s.move (.stepAttempt pick) = some t) : s.Step t := by
  simp only [move] at h
  cases hruns : s.runsCall with
  | false => simp [hruns] at h
  | true =>
    obtain ⟨e, x, hd⟩ := runsCall_eq_true.mp hruns
    simp only [hruns, Bool.not_true, Bool.false_eq_true, if_false] at h
    obtain ⟨traffic, hmove, h⟩ := Option.bind_eq_some_iff.mp h
    by_cases hover : traffic.attempts[s.attempt]?.any (·.stand.isOver) = true
    · rw [if_pos hover] at h
      obtain ⟨office, hfinish, h⟩ := Option.bind_eq_some_iff.mp h
      obtain rfl := Option.some.inj h
      obtain ⟨a, ha, hstand⟩ := (Option.any_eq_true _ _).mp hover
      cases Scene.effect_of_move hfinish with
      | finish item unwound hd' ht =>
        obtain ⟨rfl, rfl⟩ := DrainStand.running.inj (hd.symm.trans hd')
        exact .ended e pick hd hfinish hmove ⟨a, ha, hstand⟩
    · rw [if_neg hover] at h
      obtain rfl := Option.some.inj h
      refine .attempt e x _ hd rfl hmove (.inl ⟨pick, rfl⟩) fun a ha hstand => hover ?_
      rw [ha]
      exact hstand

theorem step_of_drain (h : s.move .drain = some t) : s.Step t := by
  obtain ⟨office, hmove, h⟩ := Option.bind_eq_some_iff.mp h
  split at h
  · next e x hd =>
    obtain ⟨traffic, htake, h⟩ := Option.bind_eq_some_iff.mp h
    obtain rfl := Option.some.inj h
    exact .take e x hmove hd htake
  · next hnot =>
    obtain rfl := Option.some.inj h
    exact .aside .drain ⟨hmove, nofun, nofun, nofun, nofun, fun e x _ hd => hnot e x hd⟩ rfl

theorem step_of_finishCallable {result : Except Payload V}
    (h : s.move (.finishCallable result) = some t) : s.Step t := by
  simp only [move] at h
  split at h
  · next e hd =>
    obtain ⟨traffic, hmove, h⟩ := Option.bind_eq_some_iff.mp h
    obtain rfl := Option.some.inj h
    refine .attempt e .idle _ hd rfl hmove (.inr ⟨result, rfl⟩) fun a ha hstand => ?_
    obtain ⟨a', ha', -, rfl⟩ := Call.Scene.finish_cases hmove
    obtain rfl := Option.some.inj (ha.symm.trans (Call.Scene.attempts_putAttempt ha' _))
    cases hstand
  · cases h

theorem step_of_move (h : s.move m = some t) : s.Step t := by
  cases m with
  | call u args bound =>
    simp only [move] at h
    split at h
    · obtain ⟨office, hmove, h⟩ := Option.bind_eq_some_iff.mp h
      obtain ⟨traffic, hlaunch, h⟩ := Option.bind_eq_some_iff.mp h
      obtain rfl := Option.some.inj h
      exact .call u args bound hmove hlaunch
    · cases h
  | post u number =>
    simp only [move] at h
    split at h
    · obtain ⟨office, hmove, h⟩ := Option.bind_eq_some_iff.mp h
      obtain rfl := Option.some.inj h
      exact .aside _ ⟨hmove, nofun, nofun, nofun, nofun, nofun⟩ rfl
    · cases h
  | exit u =>
    simp only [move] at h
    split at h
    · obtain ⟨office, hmove, h⟩ := Option.bind_eq_some_iff.mp h
      obtain rfl := Option.some.inj h
      exact .aside _ ⟨hmove, nofun, nofun, nofun, nofun, nofun⟩ rfl
    · cases h
  | step u => exact step_of_step h
  | postInside number =>
    simp only [move] at h
    split at h
    · cases h
    · obtain ⟨office, hmove, h⟩ := Option.bind_eq_some_iff.mp h
      obtain rfl := Option.some.inj h
      exact .aside _ ⟨hmove, nofun, nofun, nofun, nofun, nofun⟩ rfl
  | exitInside =>
    simp only [move] at h
    split at h
    · cases h
    · obtain ⟨office, hmove, h⟩ := Option.bind_eq_some_iff.mp h
      obtain rfl := Option.some.inj h
      exact .aside _ ⟨hmove, nofun, nofun, nofun, nofun, nofun⟩ rfl
  | stepInside =>
    obtain ⟨office, hmove, h⟩ := Option.bind_eq_some_iff.mp h
    obtain rfl := Option.some.inj h
    exact .aside _ ⟨hmove, nofun, nofun, nofun, nofun, nofun⟩ rfl
  | finish unwound =>
    simp only [move] at h
    split at h
    · cases h
    · next hruns =>
      obtain ⟨office, hmove, h⟩ := Option.bind_eq_some_iff.mp h
      obtain rfl := Option.some.inj h
      refine .aside _ ⟨hmove, nofun, nofun, nofun, fun _ e x _ hd => ?_, nofun⟩ rfl
      exact hruns (runsCall_eq_true.mpr ⟨e, x, hd⟩)
  | drain => exact step_of_drain h
  | stepCaller i stray =>
    obtain ⟨traffic, hmove, h⟩ := Option.bind_eq_some_iff.mp h
    obtain rfl := Option.some.inj h
    exact .caller i stray rfl hmove
  | stepAttempt pick => exact step_of_stepAttempt h
  | finishCallable result => exact step_of_finishCallable h
  | tick later =>
    obtain rfl := Option.some.inj h
    exact .tick later rfl rfl

/-! ### The two sides by themselves -/

theorem Step.office (h : s.Step t) :
    CrossCall.Reachable Scene.move (· = s.office) t.office := by
  cases h with
  | call _ _ _ hm | accept _ _ _ hm | refuse _ _ _ _ _ _ hm | take _ _ hm | ended _ _ _ hm =>
    exact .move _ (.refl _) hm
  | aside m ha => exact .move m (.refl _) ha.move
  | attempt _ _ _ _ ho | caller _ _ ho | tick _ ho => exact ho ▸ .refl _

theorem Step.traffic (h : s.Step t) :
    CrossCall.Reachable Call.Scene.move (· = s.traffic) t.traffic := by
  cases h with
  | call _ _ _ _ hm | accept _ _ _ _ _ hm | take _ _ _ _ hm | ended _ _ _ _ hm
  | attempt _ _ _ _ _ hm | caller _ _ _ hm | tick _ _ hm => exact .move _ (.refl _) hm
  | refuse _ _ _ _ _ _ _ _ hd hr => exact .move _ (.move _ (.refl _) hd) hr
  | aside _ _ ht => exact ht ▸ .refl _

/-- The last thing that a step does to the calls is a move of theirs, and nothing before it changes
where a caller stands. -/
theorem Step.last_move (h : s.Step t) :
    t.traffic = s.traffic ∨ ∃ u m, CrossCall.Reachable Call.Scene.move (· = s.traffic) u ∧
      u.parties = s.traffic.parties ∧ u.move m = some t.traffic := by
  cases h with
  | call _ _ _ _ hm | accept _ _ _ _ _ hm | take _ _ _ _ hm | ended _ _ _ _ hm
  | attempt _ _ _ _ _ hm | caller _ _ _ hm | tick _ _ hm =>
    exact .inr ⟨s.traffic, _, .refl _, rfl, hm⟩
  | refuse _ _ _ u _ _ _ _ hd hr =>
    obtain ⟨e, -, hu⟩ := Call.Scene.drop_cases hd
    exact .inr ⟨u, _, .move _ (.refl _) hd, by rw [hu], hr⟩
  | aside _ _ ht => exact .inl ht

theorem office_reachable (h : CrossCall.Reachable move (· = s) t) :
    CrossCall.Reachable Scene.move (· = s.office) t.office := by
  induction h with
  | start hs => exact hs ▸ .refl _
  | move m _ hm ih => exact .trans ih (step_of_move hm).office

theorem traffic_reachable (h : CrossCall.Reachable move (· = s) t) :
    CrossCall.Reachable Call.Scene.move (· = s.traffic) t.traffic := by
  induction h with
  | start hs => exact hs ▸ .refl _
  | move m _ hm ih => exact .trans ih (step_of_move hm).traffic

theorem Reachable.office (h : s.Reachable) : s.office.Reachable := by
  induction h with
  | start hs => exact .start hs.1
  | move m _ hm ih => exact .trans ih (step_of_move hm).office

theorem Reachable.traffic (h : s.Reachable) : s.traffic.Reachable := by
  induction h with
  | start hs => exact .start hs.2.1
  | move m _ hm ih => exact .trans ih (step_of_move hm).traffic

end CrossCall.Worker.Callers
