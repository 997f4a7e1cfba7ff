import CrossCall.Proofs.Runs
import CrossCall.Proofs.Watches

/-! What the threads of a machine have done. Each step of a thread is kept as a deed, the latest
first: what there was when the thread took the step, and what the thread had left to do. From the
deeds it can be read off that a thread has performed a program, wherever in its own program that
stood, and with which result. -/

namespace CrossCall

variable {σ α β : Type}

/-- What there was when a thread took a step. -/
structure Deed (σ : Type) : Type 1 where
  moment : Moment
  state : σ
  /-- Under which number a thread would be started by the step. -/
  fresh : ThreadId
  /-- What the thread had left to do. -/
  left : Program σ Bool

/-- What stands around a program in the turn of a thread, and goes on once the program has ended. -/
structure Around (σ α : Type) : Type 1 where
  whole : Program σ α → Program σ Bool
  perform : Program.IsAround whole
  fork (opening again : Program σ Bool) (k : ThreadId → Program σ α) :
    whole (.fork opening again k) = .fork opening again fun t => whole (k t)

namespace Around

/-- The program is all of the turn. -/
def turn : Around σ Bool where
  whole p := p
  perform _ _ _ _ := rfl
  fork _ _ _ := rfl

/-- What the program's value asks for comes first. -/
def bind (C : Around σ β) (f : α → Program σ β) : Around σ α where
  whole p := C.whole (p.bind f)
  perform := C.perform.comp (Program.isAround_bind f)
  fork opening again k := C.fork opening again fun t => (k t).bind f

/-- The panic that unwinds out of the program is caught. -/
def attempt (C : Around σ (Except Payload α)) : Around σ α where
  whole p := C.whole p.attempt
  perform := C.perform.comp Program.isAround_attempt
  fork opening again k := C.fork opening again fun t => (k t).attempt

end Around

namespace Program

/-- Along these deeds, the latest first, thread `t` has come from `p` to `q`, within `C`. -/
inductive Along (C : Around σ α) (t : ThreadId) (p : Program σ α) :
    List (Deed σ) → Program σ α → Prop where
  | start : Along C t p [] p
  /-- A deed of another thread. -/
  | aside {q : Program σ α} {past : List (Deed σ)} (d : Deed σ) :
      Along C t p past q → d.moment.self ≠ t → Along C t p (d :: past) q
  | going {q q' : Program σ α} {past : List (Deed σ)} {s : σ} (d : Deed σ) :
      Along C t p past q → d.moment.self = t → d.left = C.whole q →
      q.step d.moment d.state = .going s q' → Along C t p (d :: past) q'
  | forking {q : Program σ α} {past : List (Deed σ)} {opening again : Program σ Bool}
      {next : ThreadId → Program σ α} (d : Deed σ) :
      Along C t p past q → d.moment.self = t → d.left = C.whole q →
      q.step d.moment d.state = .forking opening again next → Along C t p (d :: past) (next d.fresh)

/-- Thread `t` has performed the program within `C`, and this was the result. -/
def Performed (past : List (Deed σ)) (t : ThreadId) (C : Around σ α) (p : Program σ α)
    (r : Except Payload α) : Prop :=
  ∃ (q : Program σ α) (later during before : List (Deed σ)),
    past = later ++ during ++ before ∧ p.Along C t during q ∧ q.Ended r

theorem Performed.later {past past' : List (Deed σ)} {t : ThreadId} {C : Around σ α}
    {p : Program σ α} {r : Except Payload α} (h : Performed past t C p r) (hpast : past <:+ past') :
    Performed past' t C p r := by
  obtain ⟨q, later, during, before, rfl, halong, hend⟩ := h
  obtain ⟨more, rfl⟩ := hpast
  exact ⟨q, more ++ later, during, before, by simp only [List.append_assoc], halong, hend⟩

end Program

/-- A machine, and what its threads have done so far. -/
structure Chronicle (σ : Type) : Type 1 where
  machine : Machine σ
  past : List (Deed σ) := []

namespace Chronicle

/-- The machine moves, and the deed is kept if a thread takes a step. -/
def move (c : Chronicle σ) : Machine.Move → Option (Chronicle σ)
  | .tick later => some { c with machine := c.machine.tick later }
  | .step t stray pick => do
    let thread ← c.machine.threads[t]?
    let left ← thread.rest
    let machine ← c.machine.step t stray pick
    return ⟨machine, ⟨⟨t, c.machine.now, stray, pick⟩, c.machine.shared,
      c.machine.threads.size, left⟩ :: c.past⟩

variable {c c' : Chronicle σ} {m : Machine.Move}

/-- Keeping the deeds stands in the way of no move. -/
theorem machine_move (c : Chronicle σ) (m : Machine.Move) :
    (c.move m).map machine = c.machine.move m := by
  cases m with
  | tick later => rfl
  | step t stray pick =>
    show (c.move _).map machine = c.machine.step t stray pick
    cases hs : c.machine.step t stray pick with
    | none =>
      simp only [move, hs, bind, Option.bind]
      cases c.machine.threads[t]? with
      | none => rfl
      | some thread => simp only; cases thread.rest <;> rfl
    | some machine' =>
      obtain ⟨thread, ht, hs'⟩ := Option.bind_eq_some_iff.mp hs
      obtain ⟨left, hleft, -⟩ := Option.bind_eq_some_iff.mp hs'
      simp only [move, hs, ht, hleft, bind, Option.bind]
      rfl

theorem move_tick {later : Instant} (h : c.move (.tick later) = some c') :
    c' = { c with machine := c.machine.tick later } := (Option.some.inj h).symm

theorem move_step {t : ThreadId} {stray : Bool} {pick : Nat}
    (h : c.move (.step t stray pick) = some c') :
    ∃ left again, c.machine.threads[t]? = some ⟨some left, again⟩ ∧
      c.machine.step t stray pick = some c'.machine ∧
      c'.past = ⟨⟨t, c.machine.now, stray, pick⟩, c.machine.shared, c.machine.threads.size,
        left⟩ :: c.past := by
  obtain ⟨⟨rest, again⟩, ht, h⟩ := Option.bind_eq_some_iff.mp h
  obtain ⟨left, hleft, h⟩ := Option.bind_eq_some_iff.mp h
  obtain ⟨machine, hs, h⟩ := Option.bind_eq_some_iff.mp h
  obtain rfl := Option.some.inj h
  obtain rfl : rest = some left := hleft
  exact ⟨left, again, ht, hs, rfl⟩

/-- Deeds are only added. -/
theorem past_move (h : c.move m = some c') : c.past <:+ c'.past := by
  cases m with
  | tick later => exact move_tick h ▸ List.suffix_refl _
  | step t stray pick =>
    obtain ⟨left, again, -, -, hpast⟩ := move_step h
    exact hpast ▸ List.suffix_cons _ _

/-- Whatever the machine can do next, it can do with its deeds kept. -/
theorem exists_move {c : Chronicle σ} {m : Machine.Move} {machine' : Machine σ}
    (h : c.machine.move m = some machine') : ∃ past, c.move m = some ⟨machine', past⟩ := by
  rw [← machine_move] at h
  obtain ⟨⟨machine, past⟩, hc, rfl⟩ := Option.map_eq_some_iff.mp h
  exact ⟨past, hc⟩

/-- What has been watched of a program is told by the deeds. -/
theorem exists_along {machine : Machine σ} {t : ThreadId} {p : Program σ α}
    {k : Except Payload α → Program σ Bool} {w : Machine.Watch σ α}
    (hrun : machine.Runs t (p.attempt.bind k))
    (hw : Reachable (Machine.Watch.move t) (· = ⟨machine, p⟩) w) :
    ∃ past, Reachable move (· = ⟨machine, []⟩) ⟨w.machine, past⟩ ∧
      p.Along (Around.turn.bind k).attempt t past w.rest := by
  suffices h : w.machine.Runs t (w.rest.attempt.bind k) ∧ ∃ past,
      Reachable move (· = ⟨machine, []⟩) ⟨w.machine, past⟩ ∧
        p.Along (Around.turn.bind k).attempt t past w.rest from h.2
  induction hw with
  | start hs => exact hs ▸ ⟨hrun, [], .refl _, .start⟩
  | @move w w' m _ hm ih =>
    obtain ⟨hruns, past, hpast, halong⟩ := ih
    refine ⟨Machine.Watch.runs_of_move hruns hm, ?_⟩
    rcases Machine.Watch.move_cases hruns hm with ⟨later, rfl, rfl⟩ |
      ⟨stray, pick, shared, rest, again, rfl, ht, hs, rfl⟩ |
      ⟨u, stray, pick, machine', rfl, hne, hs, rfl⟩
    · exact ⟨past, .move (.tick later) hpast rfl, halong⟩
    · have haround := Program.step_around (Machine.Watch.isAround_watched k) hs
      have hstep := Machine.step_of_going ht haround
      obtain ⟨past', hmove⟩ := exists_move (c := ⟨w.machine, past⟩) (m := .step t stray pick) hstep
      obtain ⟨left, again', ht', -, hpast'⟩ := move_step hmove
      obtain rfl := Option.some.inj (Thread.mk.inj (Option.some.inj (ht.symm.trans ht'))).1
      obtain rfl : past' = _ := hpast'
      exact ⟨_, .move _ hpast hmove, .going _ halong rfl rfl hs⟩
    · obtain ⟨past', hmove⟩ := exists_move (c := ⟨w.machine, past⟩) (m := .step u stray pick) hs
      obtain ⟨left, again', -, -, hpast'⟩ := move_step hmove
      obtain rfl : past' = _ := hpast'
      exact ⟨_, .move _ hpast hmove, .aside _ halong hne⟩

end Chronicle
end CrossCall
