import CrossCall.Proofs.Machines
import CrossCall.Proofs.Script.Draining
import CrossCall.Proofs.Script.Objects

/-! What a worker's thread does around an item. Once the item has ended, the thread lets go of what
the item held, counts the outcome and comes back for the next item; none of this touches a call, an
object or what the workers have waiting. -/

namespace CrossCall

namespace Worker

variable {ι : Type}

/-- The same items wait. -/
def KeepsItems (x x' : Worker ι) : Prop := x'.items = x.items

theorem respects_close : (close : Routine (Worker ι) Bool).Respects KeepsItems := by
  intro m x pc
  cases pc with
  | locking => exact Progress.respects_ite trivial rfl
  | holding => rfl

theorem respects_join : (join : Routine (Worker ι) Unit).Respects KeepsItems := by
  intro m x pc
  cases pc with
  | locking => exact Progress.respects_ite trivial rfl
  | taking => exact Progress.respects_ite rfl rfl
  | joining => exact Progress.respects_ite rfl trivial

theorem keepsItems_settle (x : Worker ι) : x.KeepsItems x.settle := rfl

theorem keepsItems_finish (x : Worker ι) : x.KeepsItems x.finish := rfl

theorem keepsItems_charge (unwound : Bool) (x : Worker ι) : x.KeepsItems (x.charge unwound) := by
  cases unwound <;> rfl

end Worker

namespace Script

open CrossCall.Script.Action

namespace World

variable {w w' w'' : World} {v : Nat}

/-- The calls, the objects and what the workers have waiting are as they were. -/
structure Tidies (w w' : World) : Prop where
  calls : w'.calls = w.calls
  objects : w'.objects = w.objects
  items : w'.workers.map Worker.items = w.workers.map Worker.items

/-- What worker `v` has waiting, if there is such a worker. -/
def waiting (w : World) (v : Nat) : Option (List Item) := w.workers[v]?.map Worker.items

theorem Tidies.refl (w : World) : w.Tidies w := ⟨rfl, rfl, rfl⟩

theorem Tidies.waiting (h : w.Tidies w') (v : Nat) : w'.waiting v = w.waiting v := by
  rw [World.waiting, World.waiting, ← List.getElem?_map, ← List.getElem?_map, h.items]

theorem Beside.waiting {own : List Nat} (h : w.Beside own w') (v : Nat) :
    w'.waiting v = w.waiting v := by
  have hitems : Worker.items ∘ Worker.unlocked = Worker.items (ι := Item) := rfl
  rw [World.waiting, World.waiting, ← hitems, ← List.getElem?_map, ← List.getElem?_map,
    ← List.map_map, ← List.map_map, h.workers]

theorem tidies_report (w : World) (e : Event) : w.Tidies (w.report e) := ⟨rfl, rfl, rfl⟩

theorem tidies_putWorker {x x' : Worker Item} (hx : w.workers[v]? = some x) (h : x.KeepsItems x') :
    w.Tidies ((workerPart v).put w x') := by
  refine ⟨rfl, rfl, ?_⟩
  show (w.workers.set v x').map Worker.items = _
  have hlt := (List.getElem?_eq_some_iff.mp hx).1
  refine List.ext_getElem? fun j => ?_
  rw [List.getElem?_map, List.getElem?_map, List.getElem?_set]
  split
  · next hj =>
    subst hj
    rw [hx, Option.map_some, Option.map_some, h]
  · rfl

theorem tidies_dropNext (w : World) (n : Nat) : w.Tidies (w.dropNext n).2 := by
  unfold dropNext
  split
  · exact ⟨rfl, rfl, rfl⟩
  · next h rest _ =>
    simp only
    split
    · exact ⟨rfl, rfl, rfl⟩
    · cases h <;> exact ⟨rfl, rfl, rfl⟩

theorem respects_exit_tidies (i : Nat) : (World.exit i).Respects Tidies := by
  have hpart (w : World) (x x' : Worker Item) (hx : (workerPart i).get? w = some x)
      (h : x.KeepsItems x') : w.Tidies ((workerPart i).put w x') := tidies_putWorker hx h
  refine .andThen (.onPart Worker.respects_close hpart) fun wasOpen => ?_
  refine .andThen (.atomic fun m w => ?_) fun own => ?_
  · cases wasOpen <;> exact ⟨rfl, rfl, rfl⟩
  · cases own with
    | true => exact .atomic fun _ => .refl
    | false => exact .onPart Worker.respects_join hpart

end World

/-- What is left only tidies up, and starts no thread. -/
structure Tidy {α : Type} (p : Action α) : Prop where
  respects : p.Respects World.Tidies
  forks : p.NeverForks

namespace Tidy

variable {α β ρ : Type} {p q : Action α} {w w' : World} {m : Moment}

theorem pure (x : α) : Tidy (.pure x : Action α) := ⟨trivial, trivial⟩

theorem run {r : Routine World ρ} (h : r.Respects World.Tidies) : Tidy (.run r) :=
  ⟨.run h, fun _ => trivial⟩

theorem bind {f : α → Action β} (h : Tidy p) (hf : ∀ x, Tidy (f x)) : Tidy (p.bind f) :=
  ⟨h.respects.bind fun x => (hf x).respects, h.forks.bind fun x => (hf x).forks⟩

theorem attempt (h : Tidy p) : Tidy p.attempt := ⟨h.respects.attempt, h.forks.attempt⟩

theorem going (h : Tidy p) (hs : p.step m w = .going w' q) : w.Tidies w' ∧ Tidy q :=
  ⟨(h.respects.going hs).1, (h.respects.going hs).2, h.forks.going hs⟩

end Tidy

theorem tidy_report (e : Event) : Tidy (report e) :=
  .run (.atomic fun _ w => World.tidies_report w e)

theorem tidy_letGo (n : Nat) : Tidy (letGo n) := by
  refine .run (.repeating (.andThen (.atomic fun _ w => World.tidies_dropNext w n) fun loss => ?_))
  cases loss with
  | nothing | done => exact .atomic fun _ => .refl
  | lastOf i => exact .andThen (World.respects_exit_tidies i) fun _ => .atomic fun _ => .refl

theorem tidy_modifyWorker (v : Nat) {f : Worker Item → Worker Item}
    (h : ∀ x, Worker.KeepsItems x (f x)) : Tidy (modifyWorker v f) := by
  refine .run (.onPart (S := Worker.KeepsItems) (.atomic fun _ x => h x) ?_)
  exact fun w x x' hx h => World.tidies_putWorker hx h

theorem tidy_afterItem (v : Nat) (name : String) (r : Except Payload Unit) :
    Tidy (afterItem v name r) := by
  have hsettle : Tidy ((modifyWorker v Worker.settle).bind fun _ => .pure true) :=
    (tidy_modifyWorker v Worker.keepsItems_settle).bind fun _ => .pure true
  cases r with
  | ok u => exact (tidy_modifyWorker v (Worker.keepsItems_charge false)).bind fun _ => hsettle
  | error p =>
    refine (tidy_modifyWorker v (Worker.keepsItems_charge true)).bind fun _ => ?_
    exact (tidy_report _).bind fun _ => hsettle

/-! ### Around an item -/

/-- Runs an item that holds its handles under `n`, and then the rest of the turn. -/
def serving (n v : Nat) (name : String) (p : Action Unit) : Action Bool :=
  (p.attempt.bind fun r => (letGo n).bind fun _ => .pure r).bind (afterItem v name)

theorem isAround_serving (n v : Nat) (name : String) : Program.IsAround (serving n v name) :=
  (Program.isAround_bind (afterItem v name)).comp
    ((Program.isAround_bind _).comp Program.isAround_attempt)

theorem tidy_serving {p : Action Unit} (h : Tidy p) (n v : Nat) (name : String) :
    Tidy (serving n v name p) := by
  refine (h.attempt.bind fun r => ?_).bind fun r => tidy_afterItem v name r
  exact (tidy_letGo n).bind fun _ => .pure r

/-- The thread of worker `v` has ended, tidies up or comes for an item. -/
inductive Idle (v : Nat) : Option (Action Bool) → Prop where
  | gone : Idle v none
  | tidying {p : Action Bool} : Tidy p → Idle v (some p)
  | coming {p : Action Bool} : Draining v .receiving p → Idle v (some p)

namespace Idle

variable {v : Nat} {p p' : Action Bool} {w w' : World} {m : Moment}

/-- Where nothing waits, nothing but tidying is done. -/
theorem going (h : Idle v (some p)) (hw : w.waiting v = some []) (hs : p.step m w = .going w' p') :
    w.Tidies w' ∧ Idle v (some p') := by
  cases h with
  | tidying h =>
    obtain ⟨htidies, hnext⟩ := h.going hs
    exact ⟨htidies, .tidying hnext⟩
  | coming h =>
    cases h with
    | turning =>
      obtain ⟨rfl, rfl⟩ := Program.Outcome.going.inj hs
      exact ⟨.refl w, .coming (.receiving _)⟩
    | receiving name =>
      obtain ⟨x, r, x', hx, hr, rfl, rfl⟩ := Program.step_guarded hs
      have hitems : x.items = [] := by
        obtain ⟨y, hy, hnone⟩ := Option.map_eq_some_iff.mp hw
        exact Option.some.inj (hy.symm.trans hx) ▸ hnone
      simp only [Worker.receive, hitems] at hr
      split at hr
      · cases hr
      · obtain ⟨rfl, rfl⟩ := Prod.mk.inj (Option.some.inj hr)
        refine ⟨World.tidies_putWorker hx rfl, .tidying ((tidy_report _).bind fun _ => ?_)⟩
        exact (tidy_modifyWorker v Worker.keepsItems_finish).bind fun _ => .pure false
    | turned => cases hs

theorem ne_forking (h : Idle v (some p)) (opening again : Action Bool)
    (next : ThreadId → Action Bool) : p.step m w ≠ .forking opening again next := by
  cases h with
  | tidying h => exact h.forks.ne_forking m w _ _ _
  | coming h =>
    cases h with
    | turned => exact nofun
    | _ => exact Program.perform_ne_forking _ _ _ m w _ _ _

end Idle

/-! ### Before an item -/

/-- The thread of worker `v` has no item, and has had none or has come back for the next one. -/
inductive AtRest (v : Nat) : Action Bool → Prop where
  | starting : AtRest v (firstTurn v)
  | telling (name : String) : AtRest v ((report (.started name)).bind fun _ => .pure true)
  | coming {p : Action Bool} : Draining v .receiving p → AtRest v p

/-- Events have been reported, and nothing else has happened. -/
def World.Told (w w' : World) : Prop := ∃ events, w' = { w with events }

theorem step_firstTurn (v : Nat) (m : Moment) (w : World) :
    (firstTurn v).step m w = (w.workers[v]?.map Worker.name).elim .blocked fun name =>
      .going w ((report (.started name)).bind fun _ => .pure true) := by
  show (Program.perform _ _ _).step m w = _
  simp only [Program.step, Routine.guarded]
  cases w.workers[v]? <;> rfl

namespace AtRest

variable {v : Nat} {p p' : Action Bool} {w w' : World} {m : Moment} {r : Except Payload Bool}

/-- A step of the thread reports an event at most, or takes what waits. -/
theorem going (h : AtRest v p) (hs : p.step m w = .going w' p') :
    (w.Told w' ∧ AtRest v p') ∨ ∃ x result x' name, w.workers[v]? = some x ∧
      x.receive = some (result, x') ∧ w' = (World.workerPart v).put w x' ∧
      p' = afterReceive v name result := by
  cases h with
  | starting =>
    rw [step_firstTurn] at hs
    cases hx : w.workers[v]? with
    | none => simp [hx] at hs
    | some x =>
      simp only [hx, Option.map_some, Option.elim_some, Program.Outcome.going.injEq] at hs
      obtain ⟨rfl, rfl⟩ := hs
      exact .inl ⟨⟨_, rfl⟩, .telling _⟩
  | telling name =>
    obtain ⟨rfl, rfl⟩ := Program.Outcome.going.inj hs
    exact .inl ⟨⟨_, rfl⟩, .coming .turned⟩
  | coming h =>
    cases h with
    | turning =>
      obtain ⟨rfl, rfl⟩ := Program.Outcome.going.inj hs
      exact .inl ⟨⟨_, rfl⟩, .coming (.receiving _)⟩
    | receiving name =>
      obtain ⟨x, result, x', hx, hr, rfl, rfl⟩ := Program.step_guarded hs
      exact .inr ⟨x, result, x', name, hx, hr, rfl, rfl⟩
    | turned => cases hs

theorem halted (h : AtRest v p) (hs : p.step m w = .halted r) : r = .ok true := by
  cases h with
  | coming h =>
    cases h with
    | turned => exact (Program.Outcome.halted.inj hs).symm
    | _ => exact absurd hs (Program.perform_ne_halted _ _ _ m w _)
  | _ => exact absurd hs (Program.perform_ne_halted _ _ _ m w _)

theorem ne_forking (h : AtRest v p) (opening again : Action Bool)
    (next : ThreadId → Action Bool) : p.step m w ≠ .forking opening again next := by
  cases h with
  | coming h => exact (Idle.coming h).ne_forking opening again next
  | _ => exact Program.perform_ne_forking _ _ _ m w _ _ _

end AtRest
end Script
end CrossCall
