import CrossCall.Proofs.Script.Orders

/-! Steps that make no call and hand nothing in. Most of what threads do leaves all calls alone and
adds no item to a queue, though it may take items away; a state that fits the orders made so far
fits them after such a step too. -/

namespace CrossCall

namespace Worker

variable {ι : Type}

/-- The same thread runs the items, and those that are added are in `S`. -/
structure Gains (S : ι → Prop) (x x' : Worker ι) : Prop where
  thread : x'.thread = x.thread
  items : ∀ item ∈ x'.items, item ∈ x.items ∨ S item

/-- The same thread runs the items, and none is added. -/
abbrev Lessens : Worker ι → Worker ι → Prop := Gains fun _ => False

theorem Gains.of_same {S : ι → Prop} {x x' : Worker ι} (ht : x'.thread = x.thread)
    (hi : x'.items = x.items) : x.Gains S x' := ⟨ht, fun _ h => .inl (hi ▸ h)⟩

theorem Gains.refl {S : ι → Prop} (x : Worker ι) : x.Gains S x := .of_same rfl rfl

/-- Handing in an item adds no other one. -/
theorem gains_enqueue (item : ι) : (enqueue item).Respects (Gains (· = item)) := by
  intro m x pc
  cases pc with
  | locking => exact Progress.respects_ite trivial (.of_same rfl rfl)
  | checking => exact Progress.respects_ite (.of_same rfl rfl) (.of_same rfl rfl)
  | sending =>
    refine Progress.respects_ite (.refl x) ⟨rfl, fun i hi => ?_⟩
    exact (List.mem_append.mp hi).imp_right List.mem_singleton.mp
  | rollingBack | releasing => exact .of_same rfl rfl

theorem lessens_close : (close : Routine (Worker ι) Bool).Respects Lessens := by
  intro m x pc
  cases pc with
  | locking => exact Progress.respects_ite trivial (.of_same rfl rfl)
  | holding => exact .of_same rfl rfl

theorem lessens_lookOpen : (lookOpen : Routine (Worker ι) Bool).Respects Lessens := by
  intro m x pc
  cases pc with
  | locking => exact Progress.respects_ite trivial (.of_same rfl rfl)
  | holding => exact .of_same rfl rfl

theorem lessens_join : (join : Routine (Worker ι) Unit).Respects Lessens := by
  intro m x pc
  cases pc with
  | locking => exact Progress.respects_ite trivial (.of_same rfl rfl)
  | taking => exact Progress.respects_ite (.of_same rfl rfl) (.of_same rfl rfl)
  | joining => exact Progress.respects_ite (.refl x) trivial

theorem lessens_stats : (stats : Routine (Worker ι) WorkerStats).Respects Lessens := by
  intro m x pc
  cases pc <;> exact .refl x

theorem lessens_charge (unwound : Bool) (x : Worker ι) : x.Lessens (x.charge unwound) := by
  cases unwound <;> exact .of_same rfl rfl

/-- What is taken was there. -/
theorem lessens_receive {x x' : Worker ι} {o : Option ι} (h : x.receive = some (o, x')) :
    x.Lessens x' ∧ ∀ item, o = some item → item ∈ x.items := by
  unfold receive at h
  split at h
  · next item rest hitems =>
    obtain ⟨rfl, rfl⟩ := Prod.mk.inj (Option.some.inj h)
    refine ⟨⟨rfl, fun i hi => .inl (hitems ▸ List.mem_cons_of_mem item hi)⟩, fun i hi => ?_⟩
    exact hitems ▸ Option.some.inj hi ▸ List.mem_cons_self
  · split at h
    · cases h
    · obtain ⟨rfl, rfl⟩ := Prod.mk.inj (Option.some.inj h)
      exact ⟨.refl x, fun _ hi => by cases hi⟩

end Worker

namespace Script

open CrossCall.Script.Action

namespace World

variable {w w' : World} {owners : List ThreadId} {b : Books World Order}

/-- No call is touched, and no item is added. -/
structure Lessens (w w' : World) : Prop where
  calls : w'.calls = w.calls
  threads : w'.workers.map Worker.thread = w.workers.map Worker.thread
  workers : ∀ (v : Nat) (x' : Worker Item), w'.workers[v]? = some x' →
    ∃ x, w.workers[v]? = some x ∧ x.Lessens x'
  shelves : ∀ items' ∈ w'.shelves, ∀ item ∈ items', ∃ items ∈ w.shelves, item ∈ items

theorem Lessens.of_same (hc : w'.calls = w.calls) (hw : w'.workers = w.workers)
    (hs : w'.shelves = w.shelves) : w.Lessens w' :=
  ⟨hc, congrArg (·.map Worker.thread) hw, fun _ x hx => ⟨x, hw ▸ hx, .refl x⟩,
    fun items hi _ h => ⟨items, hs ▸ hi, h⟩⟩

theorem Lessens.refl (w : World) : w.Lessens w := .of_same rfl rfl rfl

theorem threads_putWorker {v : Nat} {x x' : Worker Item} (hx : w.workers[v]? = some x)
    (h : x'.thread = x.thread) :
    ((workerPart v).put w x').workers.map Worker.thread = w.workers.map Worker.thread := by
  have hlt := (List.getElem?_eq_some_iff.mp hx).1
  refine List.ext_getElem? fun j => ?_
  show ((w.workers.set v x').map Worker.thread)[j]? = (w.workers.map Worker.thread)[j]?
  rw [List.getElem?_map, List.getElem?_map, List.getElem?_set]
  split
  · next hj =>
    subst hj
    rw [hx, Option.map_some, Option.map_some, h]
  · rfl

theorem workers_putWorker {v j : Nat} {x' y : Worker Item}
    (hy : ((workerPart v).put w x').workers[j]? = some y) :
    (v = j ∧ y = x') ∨ w.workers[j]? = some y := by
  change (w.workers.set v x')[j]? = some y at hy
  rw [List.getElem?_set] at hy
  split at hy
  · next hj =>
    split at hy
    · exact .inl ⟨hj, (Option.some.inj hy).symm⟩
    · cases hy
  · exact .inr hy

theorem lessens_putWorker {v : Nat} {x x' : Worker Item} (hx : w.workers[v]? = some x)
    (h : x.Lessens x') : w.Lessens ((workerPart v).put w x') := by
  refine ⟨rfl, threads_putWorker hx h.thread, fun j y hy => ?_, fun items hi _ h => ⟨items, hi, h⟩⟩
  rcases workers_putWorker hy with ⟨rfl, rfl⟩ | hy
  · exact ⟨x, hx, h⟩
  · exact ⟨y, hy, .refl y⟩

theorem lessens_clearShelf (w : World) (shelf n : Nat) : w.Lessens (w.clearShelf shelf n) := by
  refine ⟨rfl, rfl, fun _ x hx => ⟨x, hx, .refl x⟩, fun items hi item h => ?_⟩
  rcases List.mem_or_eq_of_mem_set hi with hi | rfl
  · exact ⟨items, hi, h⟩
  · cases h

theorem lessens_dropNext (w : World) (n : Nat) : w.Lessens (w.dropNext n).2 := by
  unfold dropNext
  split
  · exact .of_same rfl rfl rfl
  · next h rest _ =>
    simp only
    split
    · exact .of_same rfl rfl rfl
    · cases h with
      | worker i => exact .of_same rfl rfl rfl
      | shelf s =>
        have hclear := lessens_clearShelf { w with kept := assign n rest w.kept } s n
        exact ⟨hclear.calls, hclear.threads, hclear.workers, hclear.shelves⟩

/-- What fits goes on fitting. -/
theorem Fits.lessens (h : w.Fits owners b) (hw : w.Lessens w') (d : Deed World) :
    w'.Fits owners (b.next d) where
  threads := hw.threads.trans h.threads
  size := hw.calls ▸ h.size
  stores i c o hc := (h.next d).stores i c o (hw.calls ▸ hc)
  waiting v x' item hx' hitem := by
    obtain ⟨x, hx, hless⟩ := hw.workers v x' hx'
    exact hless.thread ▸ h.waiting v x item hx ((hless.items item hitem).resolve_right id)
  shelved items' item u hitems' hitem := by
    obtain ⟨items, hitems, hitem⟩ := hw.shelves items' hitems' item hitem
    exact h.shelved items item u hitems hitem

/-! ### Handles -/

theorem lessens_exit (i : Nat) : (World.exit i).Respects Lessens := by
  have hpart (w : World) (x x' : Worker Item) (hx : (workerPart i).get? w = some x)
      (h : x.Lessens x') : w.Lessens ((workerPart i).put w x') := lessens_putWorker hx h
  refine .andThen (.onPart Worker.lessens_close hpart) fun wasOpen => ?_
  refine .andThen (.atomic fun m w => ?_) fun own => ?_
  · cases wasOpen <;> exact .of_same rfl rfl rfl
  · cases own with
    | true => exact .atomic fun _ => .refl
    | false => exact .onPart Worker.lessens_join hpart

theorem lessens_letGo (n : Nat) : (World.letGo n).Respects Lessens := by
  refine .repeating (.andThen (.atomic fun _ w => lessens_dropNext w n) fun loss => ?_)
  cases loss with
  | nothing | done => exact .atomic fun _ => .refl
  | lastOf i => exact .andThen (lessens_exit i) fun _ => .atomic fun _ => .refl

end World

/-! ### Callables that pass nothing on -/

/-- No step makes a call or hands anything in. -/
abbrev Lessening {α : Type} (p : Action α) : Prop := p.Respects World.Lessens

theorem lessening_log (entry : Value) : Lessening (Action.log entry) :=
  .run (.atomic fun _ _ => .of_same rfl rfl rfl)

theorem lessening_passGate (name : String) : Lessening (passGate name) := by
  refine .bind (.run (.atomic fun _ _ => .of_same rfl rfl rfl)) fun _ => ?_
  refine .run (.guarded fun m w x hx => ?_)
  simp only at hx
  split at hx
  · obtain rfl := Option.some.inj hx
    exact .of_same rfl rfl rfl
  · cases hx

theorem lessening_onStore (act : Store → Except Payload Value × Store) : Lessening (onStore act) :=
  .bind (.run (.atomic fun _ _ => .of_same rfl rfl rfl)) fun r => .ofExcept r

/-- A callable either passes the call on or makes none. -/
theorem lessening_target (target : Target) (args : List Value) :
    (∃ d, target = .relay d) ∨ Lessening (target.run args) := by
  cases target with
  | relay d => exact .inl ⟨d, rfl⟩
  | named f => exact .inr ((lessening_log _).bind fun _ => .ofExcept _)
  | double => exact .inr (.ofExcept _)
  | adder n => exact .inr ((lessening_log _).bind fun _ => .ofExcept _)
  | scaler n => exact .inr ((lessening_log _).bind fun _ => .ofExcept _)
  | counter number => exact .inr ((lessening_log _).bind fun _ => lessening_onStore _)
  | gated gate value =>
    refine .inr ((lessening_log _).bind fun _ => (lessening_passGate gate).bind fun _ => ?_)
    refine (lessening_log _).bind fun _ => ?_
    split <;> trivial
  | method object name =>
    exact .inr ((lessening_log _).bind fun _ => (Program.Respects.ofExcept _).bind fun _ =>
      lessening_onStore _)
  | scaled object factor =>
    exact .inr ((Program.Respects.ofExcept _).bind fun _ => (lessening_log _).bind fun _ =>
      lessening_onStore _)
  | sleeper run nap =>
    exact .inr (.bind (.run (.atomic fun _ _ => .of_same rfl rfl rfl)) fun _ =>
      .bind (.run (.sleep World.Lessens.refl nap)) fun _ => trivial)
  | custom name act => exact .inr ((lessening_log _).bind fun _ => lessening_onStore _)

end Script
end CrossCall
