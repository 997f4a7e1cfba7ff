import CrossCall.Proofs.Script.Lessening

/-! Every thread of a script honours the orders. Whoever makes a call through a queue notes an order
and hands in an item of it; whoever runs an item of an order runs its callable where it may be run,
and stores nothing but what that came to; so the caller is told nothing else. What a target, a task,
an item or a turn of a worker does is put together from these. -/

namespace CrossCall.Script

open CrossCall.Script.Action

/-- As part `C` of thread `t`, from the books `b` on, the program keeps the state fitting the
orders; and `P` holds of the books and the result it ends with. -/
abbrev Honors {α : Type} (owners : List ThreadId) (p : Action α) (t : ThreadId)
    (C : Around World α) (P : Books World Order → Except Payload α → Prop)
    (b : Books World Order) : Prop :=
  p.Upholds (fun b w => w.Fits owners b) t C P b

/-- The program honours the orders on any thread and from any books on, whatever it ends with. -/
def AlwaysHonors {α : Type} (owners : List ThreadId) (p : Action α) : Prop :=
  ∀ (t : ThreadId) (C : Around World α) (P : Books World Order → Except Payload α → Prop) b,
    (∀ b' r, b ≤ b' → P b' r) → Honors owners p t C P b

variable {α β ρ : Type} {owners : List ThreadId} {t u : ThreadId} {b : Books World Order}
  {o : Order} {i : Nat}

section

variable {C : Around World α} {P : Books World Order → Except Payload α → Prop}

/-! ### Steps that make no call and hand nothing in -/

theorem alwaysHonors_of_lessening {p : Action α} (h : Lessening p) : AlwaysHonors owners p :=
  fun _ _ _ _ hP => .of_respects (fun _ d _ _ hw hless => hw.lessens hless d) h hP

theorem honors_run {r : Routine World α} (h : r.Respects World.Lessens)
    (hP : ∀ b' x, b ≤ b' → P b' (.ok x)) : Honors owners (.run r) t C P b :=
  .run_respects (fun _ d _ _ hw hless => hw.lessens hless d) h hP

theorem honors_run_bind {r : Routine World ρ} {f : ρ → Action α} (h : r.Respects World.Lessens)
    (hf : ∀ b' x, b ≤ b' → Honors owners (f x) t C P b') :
    Honors owners ((Program.run r).bind f) t C P b :=
  .bind (honors_run h hf)

theorem honors_report_bind {e : Event} {f : Unit → Action α}
    (hf : ∀ b', b ≤ b' → Honors owners (f ()) t C P b') :
    Honors owners ((report e).bind f) t C P b :=
  honors_run_bind (.atomic fun _ _ => .of_same rfl rfl rfl) fun b' _ => hf b'

theorem honors_report {e : Event} {C : Around World Unit}
    {P : Books World Order → Except Payload Unit → Prop} (hP : ∀ b', b ≤ b' → P b' (.ok ())) :
    Honors owners (report e) t C P b :=
  honors_run (.atomic fun _ _ => .of_same rfl rfl rfl) fun b' _ => hP b'

theorem honors_letGo {n : Nat} {C : Around World Unit}
    {P : Books World Order → Except Payload Unit → Prop} (hP : ∀ b', b ≤ b' → P b' (.ok ())) :
    Honors owners (letGo n) t C P b :=
  honors_run (World.lessens_letGo n) fun b' _ => hP b'

/-- Running a program and catching its panic, and then what its result asks for. -/
theorem honors_attempt_bind {p : Action α} {f : Except Payload α → Action β} {C : Around World β}
    {P : Books World Order → Except Payload β → Prop}
    {Q : Books World Order → Except Payload α → Prop}
    (hp : Honors owners p t (C.bind f).attempt Q b)
    (hf : ∀ b' r, b ≤ b' → Q b' r → Honors owners (f r) t C P b') :
    Honors owners (p.attempt.bind f) t C P b :=
  .bind (.attempt (hp.mono hf))

theorem honors_consume {n : Nat} {p : Action α} {C : Around World (Except Payload α)}
    {P : Books World Order → Except Payload (Except Payload α) → Prop}
    {Q : Books World Order → Except Payload α → Prop}
    (hp : ∀ C : Around World α, Honors owners p t C Q b)
    (hP : ∀ b' b'' r, b ≤ b' → Q b' r → b' ≤ b'' → P b'' (.ok r)) :
    Honors owners (consume n p) t C P b := by
  refine honors_attempt_bind (hp _) fun b' r hle hr => ?_
  exact honors_run_bind (World.lessens_letGo n) fun b'' _ hle' => hP b' b'' r hle hr hle'

end

/-! ### The state of a call -/

/-- A routine on a call that stores only outcomes in `S` answers so. -/
def Answering (S : Except Payload Value → Prop) (r : Routine (Call Value) ρ) (Q : ρ → Prop) :
    Prop :=
  ∀ m c pc, Stores S c.phase →
    (r.step m c pc).Within (fun c => Stores S c.phase) fun c x => Stores S c.phase ∧ Q x

section

variable {S : Except Payload Value → Prop}

theorem answering_enter : Answering S Call.enter fun _ => True := by
  intro m c pc h
  cases pc with
  | locking => exact Progress.within_ite trivial h
  | holding => exact Progress.within_ite ⟨trivial, trivial⟩ ⟨h, trivial⟩

theorem answering_conclude : Answering S Call.conclude fun _ => True := by
  intro m c pc h
  cases pc with
  | locking => exact Progress.within_ite trivial h
  | holding => exact Progress.within_ite ⟨h, trivial⟩ ⟨h, trivial⟩

theorem answering_deliver {r : Except Payload Value} (hr : S r) :
    Answering S (Call.deliver (r.mapError Payload.message)) fun _ => True := by
  intro m c pc h
  cases pc with
  | storing =>
    show Stores S (Call.outcomePhase (r.mapError Payload.message))
    cases r with
    | ok v => exact hr
    | error p => exact ⟨p, hr, rfl⟩
  | raising pc =>
    simp only [Call.deliver, Call.deliverStep]
    cases Signal.raiseStep m c.signal pc with
    | blocked => trivial
    | going s pc => exact h
    | finished s x => exact h
  | releasing => exact ⟨h, trivial⟩

/-- The caller is told an outcome that was stored, or that the wait has ended without one. -/
theorem answering_collect (bound : WaitBound) : Answering S (Call.collect bound) fun x =>
    x = .error .timedOut ∨ ∃ r, S r ∧ x = throughQueue r := by
  intro m c pc h
  cases pc with
  | waiting pc =>
    simp only [Call.collect, Call.collectStep]
    cases Signal.waitStep bound m c.signal pc with
    | blocked => trivial
    | going s pc => exact h
    | finished s x => exact h
  | locking signaled => exact Progress.within_ite trivial h
  | holding signaled =>
    cases signaled with
    | false => exact ⟨trivial, .inl rfl⟩
    | true =>
      refine ⟨trivial, ?_⟩
      cases hphase : c.phase with
      | completed v =>
        rw [hphase] at h
        exact .inr ⟨.ok v, h, rfl⟩
      | panicked text =>
        rw [hphase] at h
        obtain ⟨p, hp, rfl⟩ := h
        exact .inr ⟨.error p, hp, rfl⟩
      | _ => exact .inl rfl

end

theorem World.Fits.putCall {w : World} {c c' : Call Value} (h : w.Fits owners b)
    (hc : w.calls[i]? = some c) (ho : b.notes[i]? = some o)
    (hstores : Stores (o.Gives owners b.past i) c'.phase) :
    ((World.callPart i).put w c').Fits owners b where
  threads := h.threads
  size := Array.size_setIfInBounds.trans h.size
  stores j x o' hx ho' := by
    by_cases hj : i = j
    · subst hj
      obtain rfl := Option.some.inj ((World.calls_putCall_self hc).symm.trans hx)
      obtain rfl := Option.some.inj (ho.symm.trans ho')
      exact hstores
    · exact h.stores j x o' ((World.calls_putCall_ne hj w c').symm.trans hx) ho'
  waiting := h.waiting
  shelved := h.shelved

theorem honors_onCall {r : Routine (Call Value) ρ} {C : Around World ρ}
    {P : Books World Order → Except Payload ρ → Prop} {Q : Books World Order → ρ → Prop}
    (ho : b.notes[i]? = some o)
    (hr : ∀ b', b ≤ b' → Answering (o.Gives owners b'.past i) r (Q b'))
    (hP : ∀ b' b'' x, b ≤ b' → Q b' x → b' ≤ b'' → P b'' (.ok x)) :
    Honors owners (onCall i r) t C P b := by
  refine .run fun b' pc d hle _ _ hw => ?_
  show (((r.on (World.callPart i)).step d.moment d.state pc)).Within _ _
  simp only [Routine.on]
  cases hc : (World.callPart i).get? d.state with
  | none => trivial
  | some c =>
    have ho' := Books.note_le hle ho
    have hput (c' : Call Value) (h : Stores (o.Gives owners b'.past i) c'.phase) :
        ((World.callPart i).put d.state c').Fits owners (b'.next d) :=
      (hw.putCall hc ho' h).next d
    have hstep := hr b' hle d.moment c pc (hw.stores i c o hc ho')
    simp only
    cases hs : r.step d.moment c pc with
    | blocked => trivial
    | going c' pc' =>
      rw [hs] at hstep
      exact hput c' hstep
    | finished c' x =>
      rw [hs] at hstep
      exact ⟨b'.notes, List.prefix_refl _, hput c' hstep.1,
        hP b' _ x hle hstep.2 (Books.le_next b' d)⟩

/-! ### Running a call -/

theorem honors_executeCall {C : Around World Unit}
    {P : Books World Order → Except Payload Unit → Prop} {body : Action Value}
    (ho : b.notes[i]? = some o) (hruns : RunsOn owners o.caller o.queue t)
    (hbody : ∀ (C : Around World Value) b', b ≤ b' →
      Honors owners body t C (fun b r => o.callable.target.Came owners b.past o.args t C r) b')
    (hP : ∀ b', b ≤ b' → P b' (.ok ())) :
    Honors owners (executeCall i o.callable body) t C P b := by
  rw [executeCall_eq]
  refine .bind (honors_onCall ho (fun _ _ => answering_enter) fun _ b₁ entered hle₀ _ hle₁ => ?_)
  have hle₁ := hle₀.trans hle₁
  cases entered with
  | false => exact honors_report fun b' hle => hP b' (hle₁.trans hle)
  | true =>
    refine honors_attempt_bind (hbody _ b₁ hle₁) fun b₂ result hle₂ hcame => ?_
    have hle₂ := hle₁.trans hle₂
    refine .bind (honors_onCall (Books.note_le hle₂ ho) (fun _ _ => answering_conclude)
      fun b₃ b₄ wanted hle₃ _ hle₄ => ?_)
    have hle₄ := hle₃.trans hle₄
    have hdeliver (b' : Books World Order) (hle : b₂ ≤ b') :
        Honors owners (onCall i (Call.deliver (result.mapError Payload.message))) t C P b' := by
      refine honors_onCall (Q := fun _ _ => True) (Books.note_le (hle₂.trans hle) ho)
        (fun b'' hle' => ?_)
        fun _ b'' _ hle' _ hle'' => hP b'' (hle₂.trans (hle.trans (hle'.trans hle'')))
      refine answering_deliver ⟨t, C, hruns, Target.Came.later ?_ _ hcame⟩
      exact Books.past_le (hle.trans hle')
    cases wanted with
    | false => exact honors_report fun b' hle => hP b' (hle₂.trans (hle₄.trans hle))
    | true =>
      cases result with
      | ok v => exact hdeliver b₄ hle₄
      | error p => exact honors_report_bind fun b' hle => hdeliver b' (hle₄.trans hle)

/-! ### Handing in -/

theorem honors_pack {work : Work} {kept : Option Nat} {C : Around World Item}
    {P : Books World Order → Except Payload Item → Prop}
    (hP : ∀ b' n, b ≤ b' → P b' (.ok ⟨n, work⟩)) : Honors owners (pack work kept) t C P b := by
  cases kept with
  | some n => exact hP b n (le_refl b)
  | none =>
    exact honors_run_bind (.atomic fun _ _ => .of_same rfl rfl rfl) fun b' n hle => hP b' n hle

theorem World.Fits.putWorker {w : World} {v : Nat} {x x' : Worker Item} {S : Item → Prop}
    (h : w.Fits owners b) (hx : w.workers[v]? = some x) (hgain : x.Gains S x')
    (hS : ∀ item, S item → item.Fits owners b.notes x.thread) :
    ((World.workerPart v).put w x').Fits owners b where
  threads := (World.threads_putWorker hx hgain.thread).trans h.threads
  size := h.size
  stores := h.stores
  waiting j y item hy hitem := by
    rcases World.workers_putWorker hy with ⟨rfl, rfl⟩ | hy
    · rw [hgain.thread]
      exact (hgain.items item hitem).elim (h.waiting v x item hx) (hS item)
    · exact h.waiting j y item hy hitem
  shelved := h.shelved

theorem World.Fits.thread {w : World} {v : Nat} {x : Worker Item} (h : w.Fits owners b)
    (hx : w.workers[v]? = some x) : owners[v]? = some x.thread := by
  rw [← h.threads, List.getElem?_map, hx, Option.map_some]

/-- A routine on a worker that adds none but items that may be run there. -/
theorem honors_onWorker {v : Nat} {r : Routine (Worker Item) ρ} {S : Item → Prop}
    {C : Around World ρ} {P : Books World Order → Except Payload ρ → Prop}
    (hr : r.Respects (Worker.Gains S))
    (hS : ∀ item u, S item → owners[v]? = some u → item.Fits owners b.notes u)
    (hP : ∀ b' x, b ≤ b' → P b' (.ok x)) : Honors owners (onWorker v r) t C P b := by
  refine .run fun b' pc d hle _ _ hw => ?_
  simp only [Routine.on]
  cases hx : (World.workerPart v).get? d.state with
  | none => trivial
  | some x =>
    have hput (x' : Worker Item) (hgain : x.Gains S x') :
        ((World.workerPart v).put d.state x').Fits owners (b'.next d) :=
      (hw.putWorker hx hgain fun item hi => (hS item _ hi (hw.thread hx)).later hle).next d
    have hstep := hr d.moment x pc
    simp only
    cases hs : r.step d.moment x pc with
    | blocked => trivial
    | going x' pc' =>
      rw [hs] at hstep
      exact hput x' hstep
    | finished x' y =>
      rw [hs] at hstep
      exact ⟨b'.notes, List.prefix_refl _, hput x' hstep, hP _ y (hle.trans (Books.le_next b' d))⟩

/-- A routine on a worker that adds no item. -/
theorem honors_onWorker_lessens {v : Nat} {r : Routine (Worker Item) ρ} {C : Around World ρ}
    {P : Books World Order → Except Payload ρ → Prop} (hr : r.Respects Worker.Lessens)
    (hP : ∀ b' x, b ≤ b' → P b' (.ok x)) : Honors owners (onWorker v r) t C P b :=
  honors_onWorker hr (fun _ _ hS => hS.elim) hP

theorem honors_enqueueOnWorker {v : Nat} {item : Item}
    {C : Around World (Except DispatchError Unit)}
    {P : Books World Order → Except Payload (Except DispatchError Unit) → Prop}
    (hitem : ∀ u, owners[v]? = some u → item.Fits owners b.notes u)
    (hP : ∀ b' x, b ≤ b' → P b' (.ok x)) : Honors owners (enqueueOnWorker v item) t C P b := by
  refine .bind (honors_onWorker (Worker.gains_enqueue item) (fun i u hi hu => hi ▸ hitem u hu) ?_)
  intro b₁ result hle₁
  cases result with
  | error e =>
    exact honors_run_bind (World.lessens_letGo _) fun b₂ _ hle₂ => hP b₂ _ (hle₁.trans hle₂)
  | ok x =>
    refine honors_run_bind (.atomic fun _ w => .refl w) fun b₂ name hle₂ => ?_
    exact honors_report_bind fun b₃ hle₃ => hP b₃ _ (hle₁.trans (hle₂.trans hle₃))

/-- A thread is started for the work, and waited for. -/
theorem honors_handOff {line : Nat} {gate : String} {n : Nat} {body : Action Unit}
    {C : Around World Unit} {P : Books World Order → Except Payload Unit → Prop}
    (hbody : ∀ (u : ThreadId) (C : Around World Unit) b', b ≤ b' →
      Honors owners body u C (fun _ _ => True) b')
    (hP : ∀ b', b ≤ b' → P b' (.ok ())) : Honors owners (handOff line gate n body) t C P b := by
  intro b₁ haside d hself hleft hw
  have hopening (b₂ : Books World Order) (hle₂ : b₁.next d ≤ b₂) :
      Honors owners ((do
        .run (.atomic fun m w => ((), w.addToLine line m.self))
        let result ← consume n body
        .run (.atomic fun m w => ((), w.endInLine line m.self result.isOk)) : Action Unit).bind
          fun _ => .pure false) d.fresh .turn (fun _ _ => True) b₂ := by
    have hle₂ := (haside.le.trans (Books.le_next b₁ d)).trans hle₂
    refine .bind (honors_run_bind (.atomic fun _ _ => .of_same rfl rfl rfl) fun b₃ _ hle₃ => ?_)
    refine .bind (honors_consume (Q := fun _ _ => True)
      (fun C => hbody d.fresh C b₃ (hle₂.trans hle₃)) fun _ b₄ result _ _ _ => ?_)
    exact honors_run (.atomic fun _ _ => .of_same rfl rfl rfl) fun _ _ _ => trivial
  refine ⟨hopening, fun _ _ => trivial, ?_⟩
  refine honors_run (.guarded fun m w x hx => ?_) fun b₂ _ hle₂ =>
    hP b₂ ((haside.le.trans (Books.le_next b₁ d)).trans hle₂)
  obtain ⟨u, -, rfl⟩ := Option.map_eq_some_iff.mp hx
  exact .refl w

theorem honors_runHere {kept : Option Nat} {body : Action Unit} {C : Around World Unit}
    {P : Books World Order → Except Payload Unit → Prop} {B : Except Payload Unit → Prop}
    (hbody : ∀ (C : Around World Unit), Honors owners body t C (fun _ r => B r) b)
    (hP : ∀ b' r, b ≤ b' → B r → P b' r) : Honors owners (runHere kept body) t C P b := by
  cases kept with
  | none => exact (hbody C).mono hP
  | some n =>
    refine .bind (honors_consume hbody fun b' b'' r hle hr hle' => ?_)
    exact .ofExcept (hP b'' r (hle.trans hle') hr)

theorem honors_dropUnrun {kept : Option Nat} {C : Around World Unit}
    {P : Books World Order → Except Payload Unit → Prop} (hP : ∀ b', b ≤ b' → P b' (.ok ())) :
    Honors owners (dropUnrun kept) t C P b := by
  cases kept with
  | none => exact hP b (le_refl b)
  | some n => exact honors_letGo hP

theorem World.Fits.shelve {w : World} (h : w.Fits owners b) (shelf : Nat) {item : Item}
    (hitem : ∀ u, item.Fits owners b.notes u) : (w.shelve shelf item).Fits owners b where
  threads := h.threads
  size := h.size
  stores := h.stores
  waiting := h.waiting
  shelved items i u hitems hi := by
    obtain ⟨j, hj⟩ := List.mem_iff_getElem?.mp hitems
    change (w.shelves.modify shelf (· ++ [item]))[j]? = some items at hj
    rw [List.getElem?_modify] at hj
    obtain ⟨old, hold, hj⟩ := Option.map_eq_some_iff.mp hj
    have hold := List.mem_of_getElem? hold
    split at hj
    · subst hj
      rcases List.mem_append.mp hi with hi | hi
      · exact h.shelved old i u hold hi
      · exact List.mem_singleton.mp hi ▸ hitem u
    · exact h.shelved old i u hold (hj ▸ hi)

/-- Work is handed to a queue. It is run where the queue runs it, and unwinds into the thread that
hands it in only if it is run there. -/
theorem honors_enqueue {q : Queue} {work : Work} {kept : Option Nat} {body : Action Unit}
    {C : Around World (Except DispatchError Unit)}
    {P : Books World Order → Except Payload (Except DispatchError Unit) → Prop}
    {B : Except Payload Unit → Prop}
    (hwork : ∀ n u, RunsOn owners t q u → Item.Fits owners b.notes u ⟨n, work⟩)
    (hbody : ∀ u (C : Around World Unit) b', b ≤ b' → RunsOn owners t q u →
      Honors owners body u C (fun _ r => B r) b')
    (hP : ∀ b' x, b ≤ b' → P b' (.ok x))
    (hunwind : ∀ b' e, b ≤ b' → B (.error e) → P b' (.error e)) :
    Honors owners (enqueue q work kept body) t C P b := by
  obtain ⟨number, name, kind⟩ := q
  have hhere (answer : Except DispatchError Unit)
      (hruns : RunsOn owners t ⟨number, name, kind⟩ t) :
      Honors owners ((runHere kept body).bind fun _ => .pure answer) t C P b := by
    refine .bind (honors_runHere (fun C => hbody t C b (le_refl b) hruns) fun b' r hle hr => ?_)
    cases r with
    | ok x => exact hP b' answer hle
    | error e => exact hunwind b' e hle hr
  have hdropped (answer : Except DispatchError Unit) :
      Honors owners ((dropUnrun kept).bind fun _ => .pure answer) t C P b :=
    .bind (honors_dropUnrun fun b' hle => hP b' answer hle)
  cases kind with
  | inline | current => exact hhere (.ok ()) rfl
  | closed => exact hdropped (.error .closed)
  | runThenRefuse => exact hhere (.error .closed) rfl
  | discard => exact hdropped (.ok ())
  | spawnFail text => exact hdropped (.error (.spawn name text))
  | parked shelf =>
    refine .bind (honors_pack fun b₁ n hle₁ => .bind (.run fun b₂ pc d hle₂ _ _ hw => ?_))
    have hle₂ := hle₁.trans hle₂
    have hitem (u : ThreadId) : Item.Fits owners b₂.notes u ⟨n, work⟩ :=
      (hwork n u trivial).later hle₂
    exact ⟨b₂.notes, List.prefix_refl _, (hw.shelve shelf hitem).next d,
      hP _ _ (hle₂.trans (Books.le_next b₂ d))⟩
  | handoff line gate =>
    refine .bind (honors_pack fun b₁ n hle₁ => .bind (honors_handOff ?_ fun b₂ hle₂ => ?_))
    · exact fun u C b₂ hle₂ => (hbody u C b₂ (hle₁.trans hle₂) trivial).mono fun _ _ _ _ => trivial
    · exact hP b₂ _ (hle₁.trans hle₂)
  | worker v =>
    refine .bind (honors_pack fun b₁ n hle₁ => honors_enqueueOnWorker (fun u hu => ?_) ?_)
    · exact (hwork n u hu).later hle₁
    · exact fun b₂ x hle₂ => hP b₂ x (hle₁.trans hle₂)

/-! ### Making a call -/

theorem World.Fits.push {w : World} (h : w.Fits owners b) (o : Order) (d : Deed World) :
    World.Fits { w with calls := w.calls.push {} } owners ⟨d :: b.past, b.notes ++ [o]⟩ := by
  have hle : b ≤ ⟨d :: b.past, b.notes ++ [o]⟩ := Books.le_noted d (List.prefix_append _ _)
  refine ⟨h.threads, ?_, fun i c o' hc ho' => ?_, fun v x item hx hi => ?_,
    fun items item u hitems hi => (h.shelved items item u hitems hi).later hle⟩
  · simp only [Array.size_push, List.length_append, List.length_singleton, h.size]
  · rw [Array.getElem?_push] at hc
    split at hc
    · obtain rfl := Option.some.inj hc
      trivial
    · have hlt : i < b.notes.length := h.size ▸ (Array.getElem?_eq_some_iff.mp hc).1
      rw [List.getElem?_append_left hlt] at ho'
      exact (h.stores i c o' hc ho').mono fun r hr => hr.later (Books.past_le hle)
  · exact (h.waiting v x item hx hi).later hle

/-- A call is made, and its order noted. -/
theorem honors_newCall_bind {f : Nat → Action α} {C : Around World α}
    {P : Books World Order → Except Payload α → Prop} (o : Order)
    (hf : ∀ (d : Deed World) b', b ≤ b' → d ∈ b'.past → d.moment.self = t →
      d.left = C.whole (newCall.bind f) → b'.notes[d.state.calls.size]? = some o →
      Honors owners (f d.state.calls.size) t C P b') :
    Honors owners (newCall.bind f) t C P b := by
  refine .bind (.run fun b' pc d hle hself hleft hw => ?_)
  refine ⟨b'.notes ++ [o], List.prefix_append _ _, hw.push o d, ?_⟩
  refine hf d _ (hle.trans (Books.le_noted d (List.prefix_append _ _))) (.head _) hself hleft ?_
  simp only [hw.size, List.getElem?_concat_length]

theorem honors_callThrough {d : Delegate} {q : Queue} {args : List Value}
    {C : Around World (Except InvokeError Value)}
    {P : Books World Order → Except Payload (Except InvokeError Value) → Prop}
    (hbody : ∀ u (C : Around World Value) b, Honors owners (d.callable.target.run args) u C
      (fun b r => d.callable.target.Came owners b.past args u C r) b)
    (htold : ∀ b' i u (C' : Around World Unit) r, b ≤ b' → Makes b'.past t C d q args i →
      RunsOn owners t q u →
      d.callable.target.Came owners b'.past args u (C'.serving i d.callable) r →
      P b' (Way.told.gives r))
    (huntold : ∀ b' (way : Way) r, b ≤ b' → ¬ way.isComplete → P b' (way.gives r)) :
    Honors owners (callThrough q d.bound d.callable args (d.callable.target.run args)) t C P b := by
  rw [callThrough_eq]
  let o : Order := ⟨t, q, d.callable, args⟩
  refine honors_newCall_bind o fun deed b₁ hle₁ hdeed hself hleft ho => ?_
  rw [← callThrough_eq] at hleft
  have hmakes : Makes b₁.past t C d q args deed.state.calls.size := ⟨deed, hdeed, hself, rfl, hleft⟩
  refine honors_report_bind fun b₂ hle₂ => ?_
  have ho := Books.note_le hle₂ ho
  have hmakes := hmakes.later (Books.past_le hle₂)
  have hle₂ := hle₁.trans hle₂
  refine .bind (honors_enqueue (B := (· = .ok ())) (fun n u hu => ⟨_, ho, rfl, rfl, hu⟩) ?_ ?_ ?_)
  · exact fun u C b' hle hu => honors_executeCall (o := o) (Books.note_le hle ho) hu
      (fun C b _ => hbody u C b) fun _ _ => rfl
  · intro b₃ answer hle
    have ho := Books.note_le hle ho
    have hmakes := hmakes.later (Books.past_le hle)
    have hle₃ := hle₂.trans hle
    cases answer with
    | error e =>
      exact honors_report_bind fun b₄ hle₄ =>
        huntold b₄ (.refused e) (.ok .null) (hle₃.trans hle₄) Bool.false_ne_true
    | ok x =>
      refine .bind (honors_onCall ho (fun _ _ => answering_collect d.bound)
        fun b₄ b₅ outcome hle₄ houtcome hle₅ => ?_)
      -- An outcome that is collected was stored, so the order gives it.
      have hend (b₆ : Books World Order) (hle₆ : b₅ ≤ b₆) : P b₆ (.ok outcome) := by
        have hle := hle₃.trans (hle₄.trans (hle₅.trans hle₆))
        rcases houtcome with rfl | ⟨r, ⟨u, C', hu, hcame⟩, rfl⟩
        · exact huntold b₆ .timedOut (.ok .null) hle Bool.false_ne_true
        · refine htold b₆ _ u C' r hle (hmakes.later ?_) hu (Target.Came.later ?_ _ hcame)
          · exact Books.past_le (hle₄.trans (hle₅.trans hle₆))
          · exact Books.past_le (hle₅.trans hle₆)
      cases outcome with
      | ok v => exact hend b₅ (le_refl _)
      | error e => exact honors_report_bind fun b₆ hle₆ => hend b₆ hle₆
  · rintro b' e - ⟨⟩

/-- Whether the thread that runs drains the queue is known from the threads of the workers. -/
theorem honors_isCurrent_bind {q : Queue} {f : Bool → Action α} {C : Around World α}
    {P : Books World Order → Except Payload α → Prop}
    (hf : ∀ b', b ≤ b' → Honors owners (f (staysHere owners t (some q))) t C P b') :
    Honors owners ((isCurrent q).bind f) t C P b := by
  obtain ⟨number, name, kind⟩ := q
  cases kind with
  | worker v =>
    refine .bind (.run fun b' pc d hle hself _ hw => ?_)
    refine ⟨b'.notes, List.prefix_refl _, hw.next d, ?_⟩
    have hsame : (d.state.workers[v]?.any fun x => x.thread = d.moment.self) =
        staysHere owners t (some ⟨number, name, .worker v⟩) := by
      simp only [staysHere, ← hw.threads, List.getElem?_map, hself]
      cases d.state.workers[v]? <;> simp
    show Honors owners (f (d.state.workers[v]?.any fun x => x.thread = d.moment.self)) t C P _
    exact hsame ▸ hf _ (hle.trans (Books.le_next b' d))
  | _ => exact hf b (le_refl b)

/-- A call through a delegate comes to what it is to come to by what its callable comes to. -/
theorem honors_call {d : Delegate} {args : List Value} {C : Around World (Except InvokeError Value)}
    (hbody : ∀ u (C : Around World Value) b, Honors owners (d.callable.target.run args) u C
      (fun b r => d.callable.target.Came owners b.past args u C r) b) :
    Honors owners (tryInvoke d args) t C (fun b res => Comes owners b.past args d t C res) b := by
  refine .recorded ?_
  -- On the spot the callable is part of this very program, and its panic goes on as it is.
  have hhere (b₁ : Books World Order) (hstays : staysHere owners t d.queue) :
      Honors owners ((d.callable.target.run args).bind fun v => .pure (.ok v)) t C
        (fun b res => (tryInvoke d args).Performed b.past t C res →
          Comes owners b.past args d t C res) b₁ := by
    refine .bind ((hbody t C.onTheSpot b₁).mono fun b₂ r hle₂ hcame => ?_)
    cases r with
    | ok v => exact fun hp => ⟨_, _, .here hstays ⟨rfl, hcame⟩ hp, rfl⟩
    | error e => exact fun hp => ⟨_, _, .here hstays ⟨rfl, hcame⟩ hp, rfl⟩
  have haway (q : Queue) (b₁ : Books World Order) (hq : d.queue = some q)
      (haway : ¬ staysHere owners t d.queue) :
      Honors owners (callThrough q d.bound d.callable args (d.callable.target.run args)) t C
        (fun b res => (tryInvoke d args).Performed b.past t C res →
          Comes owners b.past args d t C res) b₁ := by
    refine honors_callThrough hbody (fun b' i u C' r _ hmakes hu hcame hp => ?_)
      fun b' way r _ hway hp => ⟨_, _, .untold haway hway hp, rfl⟩
    exact ⟨_, _, .told haway hq hmakes hu ⟨rfl, hcame⟩ hp, rfl⟩
  obtain ⟨callable, queue, bound, last⟩ := d
  cases queue with
  | none => exact hhere b rfl
  | some q =>
    refine honors_isCurrent_bind fun b₁ _ => ?_
    cases hstays : staysHere owners t (some q) with
    | true => exact honors_report_bind fun b₂ _ => hhere b₂ hstays
    | false => exact haway q b₁ rfl (hstays ▸ Bool.false_ne_true)

/-! ### Targets, tasks and items -/

/-- Running a target keeps the state fitting, and the target has then come to what it ends with. -/
theorem honors_target : (target : Target) → (args : List Value) → (t : ThreadId) →
    (C : Around World Value) → (b : Books World Order) → Honors owners (target.run args) t C
      (fun b r => target.Came owners b.past args t C r) b
  | .relay ⟨⟨target, arity, identity⟩, queue, bound, last⟩, args, t, C, b => by
    refine .recorded (.bind ((honors_call (d := ⟨⟨target, arity, identity⟩, queue, bound, last⟩)
      (C := C.relaying) fun u C b => honors_target target args u C b).mono fun b' res _ hres => ?_))
    cases res with
    | ok outcome => exact fun hran => ⟨hran, .ok outcome, hres, rfl⟩
    | error e => exact fun hran => ⟨hran, .error e, hres, rfl⟩
  | .named f, args, t, C, b | .double, args, t, C, b | .adder n, args, t, C, b
  | .scaler n, args, t, C, b | .counter n, args, t, C, b | .gated gate v, args, t, C, b
  | .method i name, args, t, C, b | .scaled i factor, args, t, C, b
  | .sleeper i nap, args, t, C, b | .custom name act, args, t, C, b => by
    refine .recorded (alwaysHonors_of_lessening ((lessening_target _ args).resolve_left ?_) t C _ b
      fun _ _ _ => id)
    rintro ⟨d, hd⟩
    cases hd

theorem honors_tryInvoke (d : Delegate) (args : List Value)
    (C : Around World (Except InvokeError Value)) :
    Honors owners (tryInvoke d args) t C (fun b res => Comes owners b.past args d t C res) b :=
  honors_call fun u C b => honors_target _ args u C b

theorem alwaysHonors_tryInvoke (d : Delegate) (args : List Value) :
    AlwaysHonors owners (tryInvoke d args) :=
  fun _ C _ _ hP => (honors_tryInvoke d args C).mono fun b' r hle _ => hP b' r hle

theorem AlwaysHonors.bind {p : Action α} {f : α → Action β} (hp : AlwaysHonors owners p)
    (hf : ∀ x, AlwaysHonors owners (f x)) : AlwaysHonors owners (p.bind f) := by
  refine fun t C P b hP => .bind (hp t _ _ b fun b' r hle => ?_)
  cases r with
  | ok x => exact hf x t C P b' fun b'' r hle' => hP b'' r (hle.trans hle')
  | error e => exact hP b' (.error e) hle

theorem AlwaysHonors.attempt {p : Action α} (hp : AlwaysHonors owners p) :
    AlwaysHonors owners p.attempt :=
  fun t C _ b hP => .attempt (hp t C.attempt _ b fun b' r hle => hP b' (.ok r) hle)

theorem alwaysHonors_pure (x : α) : AlwaysHonors owners (.pure x : Action α) :=
  fun _ _ _ b hP => hP b _ (le_refl b)

theorem alwaysHonors_onWorker {v : Nat} {r : Routine (Worker Item) ρ}
    (hr : r.Respects Worker.Lessens) : AlwaysHonors owners (onWorker v r) :=
  fun _ _ _ _ hP => honors_onWorker_lessens hr fun b' _ hle => hP b' _ hle

theorem lessening_report (e : Event) : Lessening (report e) :=
  .run (.atomic fun _ _ => .of_same rfl rfl rfl)

theorem lessening_isCurrent (q : Queue) : Lessening (isCurrent q) := by
  unfold isCurrent
  split
  · trivial
  · exact .run (.atomic fun _ => .refl)
  · trivial

theorem alwaysHonors_log (entry : Value) : AlwaysHonors owners (Action.log entry) :=
  alwaysHonors_of_lessening (lessening_log entry)

/-- A task is handed to a queue. -/
theorem AlwaysHonors.enqueue {task : Task} {body : Action Unit} (h : AlwaysHonors owners body)
    (q : Queue) (kept : Option Nat) : AlwaysHonors owners (enqueue q (.task task) kept body) :=
  fun _ _ _ _ hP => honors_enqueue (B := fun _ => True) (fun _ _ _ => trivial)
    (fun u C b' _ _ => h u C _ b' fun _ _ _ => trivial) (fun b' _ hle => hP b' _ hle)
    fun b' _ hle _ => hP b' _ hle

theorem alwaysHonors_onSignal (i : Nat) (r : Routine Signal ρ) :
    AlwaysHonors owners (onSignal i r) :=
  alwaysHonors_of_lessening (.run (.on r fun _ _ => .of_same rfl rfl rfl))

theorem alwaysHonors_task : (n : Nat) → (task : Task) → AlwaysHonors owners (task.run n)
  | _, .log value => alwaysHonors_log value
  | _, .threadName => alwaysHonors_of_lessening (.run (.atomic fun _ _ => .of_same rfl rfl rfl))
  | _, .panic p => fun _ _ _ b hP => hP b _ (le_refl b)
  | _, .gate name => alwaysHonors_of_lessening (lessening_passGate name)
  | _, .invoke d args => (alwaysHonors_tryInvoke d args).bind fun _ => alwaysHonors_log _
  | n, .post q next => by
    refine .bind (alwaysHonors_of_lessening (.run (.atomic fun _ w => .of_same rfl rfl rfl))) ?_
    exact fun m => ((alwaysHonors_task m next).enqueue q (some m)).bind fun _ => alwaysHonors_log _
  | _, .exit w =>
    (alwaysHonors_of_lessening (.run (World.lessens_exit w))).bind fun _ =>
      (alwaysHonors_onWorker Worker.lessens_lookOpen).bind fun _ => alwaysHonors_log _
  | _, .probe q =>
    (alwaysHonors_of_lessening (lessening_isCurrent q)).bind fun _ => alwaysHonors_log _
  | _, .stats w => (alwaysHonors_onWorker Worker.lessens_stats).bind fun _ => alwaysHonors_log _
  | _, .raise i => alwaysHonors_onSignal i _
  | _, .wait i bound => (alwaysHonors_onSignal i _).bind fun _ => alwaysHonors_log _

theorem honors_item {item : Item} {C : Around World (Except Payload Unit)}
    {P : Books World Order → Except Payload (Except Payload Unit) → Prop}
    (hitem : item.Fits owners b.notes t) (hP : ∀ b' r, b ≤ b' → P b' (.ok r)) :
    Honors owners item.run t C P b := by
  obtain ⟨number, work⟩ := item
  refine honors_consume (Q := fun _ _ => True) (fun C => ?_)
    fun b' b'' r hle _ hle' => hP b'' r (hle.trans hle')
  cases work with
  | task task => exact alwaysHonors_task number task t C _ b fun _ _ _ => trivial
  | envelope call callable args =>
    obtain ⟨o, ho, rfl, rfl, hruns⟩ := hitem
    refine honors_executeCall ho hruns (fun C b' _ => ?_) fun _ _ => trivial
    exact honors_target o.callable.target o.args t C b'

/-! ### Threads -/

theorem honors_receive_bind {v : Nat} {f : Option Item → Action α} {C : Around World α}
    {P : Books World Order → Except Payload α → Prop} (hv : owners[v]? = some t)
    (hf : ∀ result b', b ≤ b' → (∀ item, result = some item → item.Fits owners b'.notes t) →
      Honors owners (f result) t C P b') :
    Honors owners ((onWorker v (.guarded fun _ x => x.receive)).bind f) t C P b := by
  refine .bind (.run fun b' pc d hle _ _ hw => ?_)
  simp only [Routine.on]
  cases hx : (World.workerPart v).get? d.state with
  | none => trivial
  | some x =>
    simp only [Routine.guarded]
    cases hr : x.receive with
    | none => trivial
    | some result =>
      obtain ⟨hless, htaken⟩ : x.Lessens result.2 ∧
          ∀ item, result.1 = some item → item ∈ x.items := Worker.lessens_receive hr
      have hthread : x.thread = t := Option.some.inj ((hw.thread hx).symm.trans hv)
      refine ⟨b'.notes, List.prefix_refl _,
        (hw.putWorker hx hless fun _ hS => hS.elim).next d, ?_⟩
      refine hf result.1 _ (hle.trans (Books.le_next b' d)) fun item hitem => ?_
      exact hthread ▸ hw.waiting v x item hx (htaken item hitem)

/-- A turn of the thread that drains a worker. -/
theorem honors_drainTurn {v : Nat} {C : Around World Bool} (hv : owners[v]? = some t) :
    Honors owners (drainTurn v) t C (fun _ _ => True) b := by
  refine honors_run_bind (.atomic fun _ w => .refl w) fun b₁ name hle₁ => ?_
  refine honors_receive_bind hv fun result b₂ hle₂ hitem => ?_
  have hmodify {f : Worker Item → Worker Item} (hf : ∀ x, Worker.Lessens x (f x)) :
      AlwaysHonors owners (modifyWorker v f) :=
    alwaysHonors_onWorker (.atomic fun _ x => hf x)
  cases result with
  | none =>
    have hrest : AlwaysHonors owners ((report (.ended name)).bind fun _ =>
        (modifyWorker v Worker.finish).bind fun _ => .pure false) :=
      (alwaysHonors_of_lessening (lessening_report _)).bind fun _ =>
        (hmodify (f := Worker.finish) fun _ => .of_same rfl rfl).bind fun _ =>
          alwaysHonors_pure false
    exact hrest t C _ b₂ fun _ _ _ => trivial
  | some item =>
    have hrest (r : Except Payload Unit) : AlwaysHonors owners (afterItem v name r) := by
      have hsettle :
          AlwaysHonors owners ((modifyWorker v Worker.settle).bind fun _ => .pure true) :=
        (hmodify (f := Worker.settle) fun _ => .of_same rfl rfl).bind fun _ =>
          alwaysHonors_pure true
      cases r with
      | ok u => exact (hmodify (Worker.lessens_charge false)).bind fun _ => hsettle
      | error p =>
        exact (hmodify (Worker.lessens_charge true)).bind fun _ =>
          (alwaysHonors_of_lessening (lessening_report _)).bind fun _ => hsettle
    refine .bind (honors_item (hitem item rfl) fun b₃ r _ => ?_)
    exact hrest r t C _ b₃ fun _ _ _ => trivial

end CrossCall.Script
