import CrossCall.Proofs.Programs
import CrossCall.Script.Dispatch
import CrossCall.Worker.Scene

/-! The thread of a worker takes the steps of a scene's drain. A turn takes one item, runs it, and
counts how it ended; every step of the turn on the worker is the one that a scene gives the thread,
and what the item does while it runs is the item's own. -/

namespace CrossCall.Script

open CrossCall.Script.Action

/-- What is left of a turn once the item has ended. -/
def afterItem (w : Nat) (name : String) : Except Payload Unit → Action Bool
  | .ok () => do
    modifyWorker w (Worker.charge false)
    modifyWorker w Worker.settle
    return true
  | .error p => do
    modifyWorker w (Worker.charge true)
    report (.itemPanicked name p.message)
    modifyWorker w Worker.settle
    return true

/-- What is left of a turn once the thread knows what it is to run. -/
def afterReceive (w : Nat) (name : String) : Option Item → Action Bool
  | none => do
    report (.ended name)
    modifyWorker w Worker.finish
    return false
  | some item => item.run.bind (afterItem w name)

/-- A panic of an item ends with the item. -/
theorem Item.run_neverUnwinds (item : Item) : item.run.NeverUnwinds :=
  (Program.neverUnwinds_attempt _).bind fun _ => fun _ => trivial

/-- What is left of a turn of the thread of worker `w`, told by where the thread stands. A turn that
answers true is followed by another one. -/
inductive Draining (w : Nat) : Worker.DrainStand Item → Action Bool → Prop where
  | turning : Draining w .receiving (drainTurn w)
  | receiving (name : String) : Draining w .receiving
      ((onWorker w (.guarded fun _ x => x.receive)).bind (afterReceive w name))
  | performing (item : Item) (inside : Worker.Stand Item) (name : String) {ρ : Type}
      (r : Routine World ρ) (pc : r.Pc) (k : ρ → Action (Except Payload Unit)) :
      (Program.perform r pc k).NeverUnwinds →
      Draining w (.running item inside) ((Program.perform r pc k).bind (afterItem w name))
  | forking (item : Item) (inside : Worker.Stand Item) (name : String) (opening again : Action Bool)
      (k : ThreadId → Action (Except Payload Unit)) :
      (Program.fork opening again k).NeverUnwinds →
      Draining w (.running item inside) ((Program.fork opening again k).bind (afterItem w name))
  | charging (name : String) (result : Except Payload Unit) :
      Draining w (.charging (!result.isOk)) (afterItem w name result)
  | telling (e : Event) : Draining w .settling
      ((report e).bind fun _ => (modifyWorker w Worker.settle).bind fun _ => .pure true)
  | settling : Draining w .settling ((modifyWorker w Worker.settle).bind fun _ => .pure true)
  | turned : Draining w .receiving (.pure true)
  | leaving (e : Event) : Draining w .finishing
      ((report e).bind fun _ => (modifyWorker w Worker.finish).bind fun _ => .pure false)
  | finishing : Draining w .finishing
      ((modifyWorker w Worker.finish).bind fun _ => .pure false)
  | ended : Draining w .over (.pure false)

/-- The thread stands here, or it has run an item up to now and the item has ended. -/
def Drained (w : Nat) (stand : Worker.DrainStand Item) (p : Action Bool) : Prop :=
  Draining w stand p ∨ ∃ item inside unwound, stand = .running item inside ∧
    Draining w (.charging unwound) p

variable {n : Nat} {stand : Worker.DrainStand Item} {p p' : Action Bool} {w w' : World} {m : Moment}

theorem drained_item (n : Nat) (name : String) (item : Item) (inside : Worker.Stand Item)
    {rest : Action (Except Payload Unit)} (h : rest.NeverUnwinds) :
    Drained n (.running item inside) (rest.bind (afterItem n name)) := by
  cases rest with
  | pure result => exact .inr ⟨item, inside, _, rfl, .charging name result⟩
  | unwind payload => cases h
  | perform r pc k => exact .inl (.performing item inside name r pc k h)
  | fork opening again k => exact .inl (.forking item inside name opening again k h)

/-- The program takes a step on the worker only where a scene lets the worker's thread take the
same. -/
theorem Draining.step (h : Draining n stand p) (hs : p.step m w = .going w' p') :
    (w' = w ∨ ∃ e, w' = w.report e) ∧ Draining n stand p' ∨
      (∃ item inside, stand = .running item inside ∧ Drained n stand p') ∨
      ∃ x x' stand', w.workers[n]? = some x ∧ w' = (World.workerPart n).put w x' ∧
        Drained n stand' p' ∧ ∀ s : Worker.Scene Item, s.worker = x →
          ∃ deeds, s.stepDrain stand = some { s with worker := x', drain := stand', deeds } := by
  cases h with
  | turning =>
    obtain ⟨rfl, rfl⟩ := Program.Outcome.going.inj hs
    exact .inl ⟨.inl rfl, .receiving _⟩
  | receiving name =>
    obtain ⟨x, r, x', hx, hr, hw, rfl⟩ := Program.step_guarded hs
    cases r with
    | none =>
      refine .inr (.inr ⟨x, x', .finishing, hx, hw, .inl (.leaving _), fun s hsx => ?_⟩)
      exact ⟨s.deeds, by simp only [Worker.Scene.stepDrain, hsx, hr]⟩
    | some item =>
      refine .inr (.inr ⟨x, x', .running item .idle, hx, hw,
        drained_item n name item .idle item.run_neverUnwinds, fun s hsx => ?_⟩)
      exact ⟨_, by simp only [Worker.Scene.stepDrain, hsx, hr]; rfl⟩
  | performing item inside name r pc k hk =>
    simp only [Program.bind, Program.step] at hs
    split at hs
    · cases hs
    · next s' pc' hr =>
      obtain ⟨rfl, rfl⟩ := Program.Outcome.going.inj hs
      exact .inr (.inl ⟨item, inside, rfl,
        drained_item n name item inside (show (Program.perform r pc' k).NeverUnwinds from hk)⟩)
    · next s' x hr =>
      obtain ⟨rfl, rfl⟩ := Program.Outcome.going.inj hs
      exact .inr (.inl ⟨item, inside, rfl, drained_item n name item inside (hk x)⟩)
  | forking item inside name opening again k hk => cases hs
  | charging name result =>
    cases result with
    | ok u =>
      obtain ⟨x, hx, hw, rfl⟩ := Program.step_atomic hs
      exact .inr (.inr ⟨x, _, .settling, hx, hw, .inl .settling, fun s hsx =>
        ⟨s.deeds, by subst hsx; rfl⟩⟩)
    | error payload =>
      obtain ⟨x, hx, hw, rfl⟩ := Program.step_atomic hs
      exact .inr (.inr ⟨x, _, .settling, hx, hw, .inl (.telling _), fun s hsx =>
        ⟨s.deeds, by subst hsx; rfl⟩⟩)
  | telling e =>
    obtain ⟨rfl, rfl⟩ := Program.Outcome.going.inj hs
    exact .inl ⟨.inr ⟨e, rfl⟩, .settling⟩
  | settling =>
    obtain ⟨x, hx, hw, rfl⟩ := Program.step_atomic hs
    exact .inr (.inr ⟨x, _, .receiving, hx, hw, .inl .turned, fun s hsx =>
      ⟨s.deeds, by subst hsx; rfl⟩⟩)
  | turned => cases hs
  | leaving e =>
    obtain ⟨rfl, rfl⟩ := Program.Outcome.going.inj hs
    exact .inl ⟨.inr ⟨e, rfl⟩, .finishing⟩
  | finishing =>
    obtain ⟨x, hx, hw, rfl⟩ := Program.step_atomic hs
    exact .inr (.inr ⟨x, _, .over, hx, hw, .inl .ended, fun s hsx =>
      ⟨s.deeds, by subst hsx; rfl⟩⟩)
  | ended => cases hs

theorem Draining.fork {opening again : Action Bool} {next : ThreadId → Action Bool}
    (h : Draining n stand p) (hs : p.step m w = .forking opening again next) (t : ThreadId) :
    ∃ item inside, stand = .running item inside ∧ Drained n stand (next t) := by
  cases h with
  | forking item inside name opening' again' k hk =>
    obtain ⟨-, -, rfl⟩ := Program.Outcome.forking.inj hs
    exact ⟨item, inside, rfl, drained_item n name item inside (hk t)⟩
  | charging name result =>
    cases result with
    | ok u => exact absurd hs (Program.perform_ne_forking _ _ _ m w _ _ _)
    | error payload => exact absurd hs (Program.perform_ne_forking _ _ _ m w _ _ _)
  | turned => cases hs
  | ended => cases hs
  | _ => exact absurd hs (Program.perform_ne_forking _ _ _ m w _ _ _)

/-- A turn that is over is followed by another one until the thread has left its loop. -/
theorem Draining.halted {r : Except Payload Bool} (h : Draining n stand p)
    (hs : p.step m w = .halted r) : r = .ok true ∧ stand = .receiving ∨
      r = .ok false ∧ stand = .over := by
  cases h with
  | turned => exact .inl ⟨(Program.Outcome.halted.inj hs).symm, rfl⟩
  | ended => exact .inr ⟨(Program.Outcome.halted.inj hs).symm, rfl⟩
  | forking => cases hs
  | charging name result =>
    cases result with
    | ok u => exact absurd hs (Program.perform_ne_halted _ _ _ m w _)
    | error payload => exact absurd hs (Program.perform_ne_halted _ _ _ m w _)
  | _ => exact absurd hs (Program.perform_ne_halted _ _ _ m w _)

/-- Whatever other threads do in between, what is left of a turn is the thread somewhere on its
way. -/
theorem draining_of_comesTo (h : (drainTurn n).ComesTo p) : ∃ stand, Draining n stand p := by
  induction h with
  | refl => exact ⟨_, .turning⟩
  | going m w w' _ hs ih =>
    obtain ⟨stand, hstand⟩ := ih
    rcases hstand.step hs with
      ⟨-, h⟩ | ⟨_, _, -, h | ⟨_, _, _, -, h⟩⟩ | ⟨_, _, _, -, -, h | ⟨_, _, _, -, h⟩, -⟩
    all_goals exact ⟨_, h⟩
  | forking m w t _ hs ih =>
    obtain ⟨stand, hstand⟩ := ih
    obtain ⟨_, _, -, h | ⟨_, _, _, -, h⟩⟩ := hstand.fork hs t
    all_goals exact ⟨_, h⟩

/-- Nothing that an item does unwinds into the thread of the worker. -/
theorem drainTurn_ne_halted (h : (drainTurn n).ComesTo p) (payload : Payload) :
    p.step m w ≠ .halted (.error payload) := by
  obtain ⟨stand, hstand⟩ := draining_of_comesTo h
  intro hs
  rcases hstand.halted hs with ⟨hr, -⟩ | ⟨hr, -⟩ <;> cases hr

end CrossCall.Script
