import CrossCall.Proofs.Machines
import CrossCall.Script.Dispatch

/-! What calls and queues touch of the world they share. No step that belongs to a call, to an item
of a queue or to a turn of a worker changes what a slot stands for, so every delegate stays the one
it was; and no step changes the state of more than one call. -/

namespace CrossCall.Script

open CrossCall.Script.Action

namespace World

variable {w w' : World}

/-- The slots are as they were, and so is every call but one. -/
structure Spares (w w' : World) : Prop where
  slots : w'.slots = w.slots
  calls : ∃ i : Nat, ∀ j : Nat, j ≠ i → w'.calls[j]? = w.calls[j]?

theorem Spares.of_calls (hs : w'.slots = w.slots) (hc : w'.calls = w.calls) : w.Spares w' :=
  ⟨hs, 0, fun _ _ => by rw [hc]⟩

theorem Spares.refl (w : World) : w.Spares w := .of_calls rfl rfl

theorem spares_put (i : Nat) (w : World) (c : Call Value) : w.Spares ((callPart i).put w c) :=
  ⟨rfl, i, fun _ hj => Array.getElem?_setIfInBounds_ne (Ne.symm hj)⟩

theorem spares_push (w : World) (c : Call Value) :
    w.Spares { w with calls := w.calls.push c } := by
  refine ⟨rfl, w.calls.size, fun j hj => ?_⟩
  rw [Array.getElem?_push, if_neg hj]

theorem spares_divide (w : World) (n : Nat) (stays goes : List Handle) :
    w.Spares (w.divide n stays goes).2 := .of_calls rfl rfl

theorem spares_dropNext (w : World) (n : Nat) : w.Spares (w.dropNext n).2 := by
  unfold dropNext
  split
  · exact .of_calls rfl rfl
  · next h rest _ =>
    simp only
    split
    · exact .of_calls rfl rfl
    · cases h <;> exact .of_calls rfl rfl

end World

/-- Every step spares the slots, and all calls but one. -/
abbrev Sparing {α : Type} (p : Action α) : Prop := p.Respects World.Spares

variable {α ρ : Type}

/-! ### Single steps -/

theorem sparing_onCall (i : Nat) (r : Routine (Call Value) ρ) : Sparing (onCall i r) :=
  .run (.on r (World.spares_put i))

theorem sparing_onSignal (i : Nat) (r : Routine Signal ρ) : Sparing (onSignal i r) :=
  .run (.on r fun _ _ => .of_calls rfl rfl)

theorem sparing_onWorker (i : Nat) (r : Routine (Worker Item) ρ) : Sparing (onWorker i r) :=
  .run (.on r fun _ _ => .of_calls rfl rfl)

theorem sparing_report (e : Event) : Sparing (report e) := .run (.atomic fun _ _ => .of_calls rfl rfl)

theorem sparing_log (entry : Value) : Sparing (Action.log entry) :=
  .run (.atomic fun _ _ => .of_calls rfl rfl)

theorem sparing_query (f : World → ρ) : Sparing (.query f) := .run (.atomic fun _ => .refl)

theorem sparing_keep (handles : List Handle) : Sparing (keep handles) :=
  .run (.atomic fun _ _ => .of_calls rfl rfl)

theorem sparing_newCall : Sparing newCall := .run (.atomic fun _ w => World.spares_push w {})

/-! ### Handles -/

theorem respects_exit (i : Nat) : (World.exit i).Respects World.Spares := by
  refine .andThen (.on _ fun _ _ => .of_calls rfl rfl) fun wasOpen => ?_
  refine .andThen (.atomic fun m w => ?_) fun own => ?_
  · cases wasOpen <;> exact .of_calls rfl rfl
  · cases own with
    | true => exact .atomic fun _ => .refl
    | false => exact .on _ fun _ _ => .of_calls rfl rfl

theorem sparing_letGo (n : Nat) : Sparing (letGo n) := by
  refine .run (.repeating (.andThen (.atomic fun _ w => World.spares_dropNext w n) fun loss => ?_))
  cases loss with
  | nothing | done => exact .atomic fun _ => .refl
  | lastOf i => exact .andThen (respects_exit i) fun _ => .atomic fun _ => .refl

theorem sparing_consume (n : Nat) {body : Action α} (h : Sparing body) : Sparing (consume n body) :=
  h.attempt.bind fun _ => (sparing_letGo n).bind fun _ => trivial

/-! ### Queues -/

theorem sparing_isCurrent (q : Queue) : Sparing (isCurrent q) := by
  unfold isCurrent
  split
  · trivial
  · exact .run (.atomic fun _ => .refl)
  · trivial

theorem sparing_passGate (name : String) : Sparing (passGate name) := by
  refine .bind (.run (.atomic fun _ _ => .of_calls rfl rfl)) fun _ => ?_
  refine .run (.guarded fun m w x hx => ?_)
  simp only at hx
  split at hx
  · obtain rfl := Option.some.inj hx
    exact .of_calls rfl rfl
  · cases hx

theorem sparing_runHere (kept : Option Nat) {body : Action Unit} (h : Sparing body) :
    Sparing (runHere kept body) := by
  cases kept with
  | none => exact h
  | some n => exact (sparing_consume n h).bind fun r => .ofExcept r

theorem sparing_dropUnrun (kept : Option Nat) : Sparing (dropUnrun kept) := by
  cases kept with
  | none => trivial
  | some n => exact sparing_letGo n

theorem sparing_pack (work : Work) (kept : Option Nat) : Sparing (pack work kept) := by
  cases kept with
  | none => exact (sparing_keep _).bind fun _ => trivial
  | some n => trivial

theorem sparing_enqueueOnWorker (w : Nat) (item : Item) : Sparing (enqueueOnWorker w item) := by
  refine (sparing_onWorker w _).bind fun result => ?_
  cases result with
  | ok u =>
    exact (sparing_query _).bind fun name => (sparing_report _).bind fun _ => trivial
  | error e => exact (sparing_letGo _).bind fun _ => trivial

theorem sparing_handOff (line : Nat) (gate : String) (n : Nat) {body : Action Unit}
    (h : Sparing body) : Sparing (handOff line gate n body) := by
  refine .bind (.spawn ?_) fun t => .run (.guarded fun m w x hx => ?_)
  · refine .bind (.run (.atomic fun _ _ => .of_calls rfl rfl)) fun _ => ?_
    exact (sparing_consume n h).bind fun _ => .run (.atomic fun _ _ => .of_calls rfl rfl)
  · obtain ⟨u, -, rfl⟩ := Option.map_eq_some_iff.mp hx
    exact .refl w

theorem sparing_enqueue (q : Queue) (work : Work) (kept : Option Nat) {body : Action Unit}
    (h : Sparing body) : Sparing (enqueue q work kept body) := by
  unfold enqueue
  split
  · exact (sparing_runHere kept h).bind fun _ => trivial
  · exact (sparing_runHere kept h).bind fun _ => trivial
  · exact (sparing_dropUnrun kept).bind fun _ => trivial
  · exact (sparing_runHere kept h).bind fun _ => trivial
  · exact (sparing_dropUnrun kept).bind fun _ => trivial
  · exact (sparing_dropUnrun kept).bind fun _ => trivial
  · refine (sparing_pack work kept).bind fun item => ?_
    exact .bind (.run (.atomic fun _ _ => .of_calls rfl rfl)) fun _ => trivial
  · refine (sparing_pack work kept).bind fun item => ?_
    exact (sparing_handOff _ _ _ h).bind fun _ => trivial
  · exact (sparing_pack work kept).bind fun item => sparing_enqueueOnWorker _ item

/-! ### Calls -/

theorem sparing_executeCall (i : Nat) (callable : Callable) {body : Action Value}
    (h : Sparing body) : Sparing (executeCall i callable body) := by
  refine (sparing_onCall i _).bind fun entered => ?_
  cases entered with
  | false => exact sparing_report _
  | true =>
    refine h.attempt.bind fun result => (sparing_onCall i _).bind fun wanted => ?_
    cases wanted with
    | false => exact sparing_report _
    | true =>
      cases result with
      | ok v => exact sparing_onCall i _
      | error p => exact (sparing_report _).bind fun _ => sparing_onCall i _

theorem sparing_callThrough (q : Queue) (bound : WaitBound) (callable : Callable)
    (args : List Value) {body : Action Value} (h : Sparing body) :
    Sparing (callThrough q bound callable args body) := by
  refine sparing_newCall.bind fun i => (sparing_report _).bind fun _ => ?_
  refine (sparing_enqueue q _ none (sparing_executeCall i callable h)).bind fun answer => ?_
  cases answer with
  | error e => exact (sparing_report _).bind fun _ => trivial
  | ok u =>
    refine (sparing_onCall i _).bind fun outcome => ?_
    cases outcome with
    | ok v => trivial
    | error e => exact (sparing_report _).bind fun _ => trivial

theorem sparing_invokeWith (queue : Option Queue) (bound : WaitBound) (callable : Callable)
    (args : List Value) {body : Action Value} (h : Sparing body) :
    Sparing (invokeWith queue bound callable args body) := by
  cases queue with
  | none => exact h.bind fun _ => trivial
  | some q =>
    refine (sparing_isCurrent q).bind fun current => ?_
    cases current with
    | true => exact (sparing_report _).bind fun _ => h.bind fun _ => trivial
    | false => exact sparing_callThrough q bound callable args h

theorem sparing_onStore (act : Store → Except Payload Value × Store) : Sparing (onStore act) :=
  .bind (.run (.atomic fun _ _ => .of_calls rfl rfl)) fun r => .ofExcept r

/-- Whatever a script's callables do, they leave the slots alone. -/
theorem sparing_target : (target : Target) → (args : List Value) → Sparing (target.run args)
  | .named f, args => (sparing_log _).bind fun _ => .ofExcept _
  | .double, _ => .ofExcept _
  | .adder n, args => (sparing_log _).bind fun _ => .ofExcept _
  | .scaler n, args => (sparing_log _).bind fun _ => .ofExcept _
  | .counter number, args => (sparing_log _).bind fun _ => sparing_onStore _
  | .gated gate value, _ => by
    refine (sparing_log _).bind fun _ => (sparing_passGate gate).bind fun _ => ?_
    refine (sparing_log _).bind fun _ => ?_
    split <;> trivial
  | .relay ⟨⟨target, arity, identity⟩, queue, bound, _⟩, args =>
    (sparing_invokeWith queue bound _ args (sparing_target target args)).bind fun _ => trivial
  | .method object name, args =>
    (sparing_log _).bind fun _ => (Program.Respects.ofExcept _).bind fun _ =>
      sparing_onStore _
  | .scaled object factor, args =>
    (Program.Respects.ofExcept _).bind fun _ => (sparing_log _).bind fun _ =>
      sparing_onStore _
  | .sleeper run nap, _ =>
    .bind (.run (.atomic fun _ _ => .of_calls rfl rfl)) fun _ =>
      .bind (.run (.sleep World.Spares.refl nap)) fun _ => trivial
  | .custom name act, args => (sparing_log _).bind fun _ => sparing_onStore _

theorem sparing_tryInvoke (d : Delegate) (args : List Value) : Sparing (tryInvoke d args) :=
  sparing_invokeWith d.queue d.bound d.callable args (sparing_target _ args)

theorem sparing_asyncInvoke (d : Delegate) (args : List Value) : Sparing (asyncInvoke d args) :=
  (sparing_tryInvoke d args).bind fun _ => trivial

theorem sparing_invoke (d : Delegate) (args : List Value) : Sparing (invoke d args) :=
  (sparing_tryInvoke d args).attempt.bind fun _ => trivial

/-! ### What else a queue's thread runs -/

theorem sparing_task : (n : Nat) → (task : Task) → Sparing (task.run n)
  | _, .log value => sparing_log value
  | _, .threadName => .run (.atomic fun _ _ => .of_calls rfl rfl)
  | _, .panic p => trivial
  | _, .gate name => sparing_passGate name
  | _, .invoke d args => (sparing_tryInvoke d args).bind fun _ => sparing_log _
  | n, .post q next => by
    refine .bind (.run (.atomic fun _ w => World.spares_divide w n _ _)) fun m => ?_
    exact (sparing_enqueue q _ _ (sparing_task m next)).bind fun _ => sparing_log _
  | _, .exit w =>
    .bind (.run (respects_exit w)) fun _ => (sparing_onWorker w _).bind fun _ => sparing_log _
  | _, .probe q => (sparing_isCurrent q).bind fun _ => sparing_log _
  | _, .stats w => (sparing_onWorker w _).bind fun _ => sparing_log _
  | _, .raise i => sparing_onSignal i _
  | _, .wait i bound => (sparing_onSignal i _).bind fun _ => sparing_log _

theorem sparing_item (item : Item) : Sparing item.run := by
  refine sparing_consume _ ?_
  cases item.work with
  | envelope call callable args => exact sparing_executeCall call callable (sparing_target _ args)
  | task t => exact sparing_task _ t

theorem sparing_drainTurn (w : Nat) : Sparing (drainTurn w) := by
  refine (sparing_query _).bind fun name => (sparing_onWorker w _).bind fun item => ?_
  cases item with
  | none =>
    exact (sparing_report _).bind fun _ => (sparing_onWorker w _).bind fun _ => trivial
  | some item =>
    refine (sparing_item item).bind fun result => ?_
    have hsettle : Sparing ((modifyWorker w Worker.settle).bind fun _ => .pure true) :=
      (sparing_onWorker w _).bind fun _ => trivial
    cases result with
    | ok u => exact (sparing_onWorker w _).bind fun _ => hsettle
    | error p =>
      exact (sparing_onWorker w _).bind fun _ => (sparing_report _).bind fun _ => hsettle

/-! ### Machines of callers and workers -/

/-- Makes calls through delegates one after another, in any of the ways there are. A call may depend
on how the ones before it ended. -/
inductive MakesCalls : Action Bool → Prop where
  | done (again : Bool) : MakesCalls (.pure again)
  | tryInvoke (d : Delegate) (args : List Value)
      (next : Except InvokeError Value → Action Bool) : (∀ x, MakesCalls (next x)) →
      MakesCalls ((tryInvoke d args).bind next)
  | asyncInvoke (d : Delegate) (args : List Value) (next : Option Value → Action Bool) :
      (∀ x, MakesCalls (next x)) → MakesCalls ((asyncInvoke d args).bind next)
  | invoke (d : Delegate) (args : List Value)
      (next : Delegate × Except Payload (Option Value) → Action Bool) :
      (∀ x, MakesCalls (next x)) → MakesCalls ((invoke d args).bind next)

theorem MakesCalls.sparing {p : Action Bool} (h : MakesCalls p) : Sparing p := by
  induction h with
  | done again => trivial
  | tryInvoke d args next _ ih => exact (sparing_tryInvoke d args).bind ih
  | asyncInvoke d args next _ ih => exact (sparing_asyncInvoke d args).bind ih
  | invoke d args next _ ih => exact (sparing_invoke d args).bind ih

/-- A thread that makes calls, or one that drains a worker. -/
inductive TakesPart : Thread World → Prop where
  | caller (rest : Action Bool) : MakesCalls rest → TakesPart ⟨some rest, .pure false⟩
  | worker (w : Nat) : TakesPart ⟨some (drainTurn w), drainTurn w⟩

theorem TakesPart.sparing {thread : Thread World} (h : TakesPart thread) :
    thread.Respects World.Spares := by
  cases h with
  | caller rest hrest => exact ⟨fun p hp => Option.some.inj hp ▸ hrest.sparing, trivial⟩
  | worker w => exact ⟨fun p hp => Option.some.inj hp ▸ sparing_drainTurn w, sparing_drainTurn w⟩

theorem spares_of_machine {start machine after : Machine World} {m : Machine.Move}
    (h : ∀ thread ∈ start.threads, TakesPart thread)
    (hr : Reachable Machine.move (· = start) machine) (hm : machine.move m = some after) :
    machine.shared.Spares after.shared := by
  have hstart : start.Respects World.Spares := fun thread ht => (h thread ht).sparing
  rcases ((hstart.reachable hr).move hm).1 with hsame | hspares
  · exact hsame ▸ .refl _
  · exact hspares

end CrossCall.Script
