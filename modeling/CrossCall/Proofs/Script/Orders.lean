import CrossCall.Proofs.Script.Attempting
import CrossCall.Proofs.Script.OnTheSpot
import CrossCall.Proofs.Script.Tidying
import CrossCall.Proofs.Upholding

/-! What the threads of a script owe each other. A call that goes to a queue is an order: whoever
runs it may give its caller nothing but what the callable came to there. So that this can be said of
a whole machine, the orders are noted as calls are made, under the numbers of the calls, and the
state fits the notes as long as every stored outcome is one that its order may give, and every item
that waits is one that may be run where it waits. -/

namespace CrossCall

namespace Script

open CrossCall.Script.Action

/-! ### Ways -/

/-- Whether a call of thread `t` is run on the spot: without a queue, and on the thread that drains
the queue, open or closed. The workers have the threads `owners`. -/
def staysHere (owners : List ThreadId) (t : ThreadId) : Option Queue → Bool
  | none => true
  | some q =>
    match q.kind with
    | .current => true
    | .worker v => owners[v]? = some t
    | _ => false

/-- Thread `u` may run what thread `t` hands to the queue. -/
def RunsOn (owners : List ThreadId) (t : ThreadId) (q : Queue) (u : ThreadId) : Prop :=
  match q.kind with
  | .inline | .current | .runThenRefuse => u = t
  | .worker v => owners[v]? = some u
  | .parked _ | .handoff .. => True
  | .closed | .discard | .spawnFail _ => False

/-- Which way a call has gone. -/
inductive Way where
  /-- It was run on the spot. -/
  | here
  /-- It was run for its caller, who was told the outcome. -/
  | told
  | timedOut
  | refused (error : DispatchError)
  deriving DecidableEq

/-- What a call that has gone this way comes to, by what its callable came to. -/
def Way.gives (r : Except Payload Value) : Way → Except Payload (Except InvokeError Value)
  | here => r.map .ok
  | told => .ok (throughQueue r)
  | timedOut => .ok (.error .timedOut)
  | refused e => .ok (.error (.dispatch e))

/-- The callable was run, and its caller was told. -/
def Way.isComplete : Way → Bool
  | here | told => true
  | timedOut | refused _ => false

/-- What the callable at the outer end of these calls comes to, the innermost one having come to
`r`. -/
def relayed (r : Except Payload Value) : List Way → Except Payload Value
  | [] => r
  | way :: ways => (way.gives (relayed r ways)).map outcomeValue

/-- What the calls come to that have gone these ways, the outermost first. -/
def outcomes (r : Except Payload Value) :
    List Way → List (Except Payload (Except InvokeError Value))
  | [] => []
  | way :: ways => way.gives (relayed r ways) :: outcomes r ways

end Script

/-! ### Where callables stand -/

namespace Around

open CrossCall.Script

/-- Around the callable of a call on the spot. -/
def onTheSpot (C : Around World (Except InvokeError Value)) : Around World Value :=
  C.bind fun v => .pure (.ok v)

/-- Around a call whose outcome the callable answers. -/
def relaying (C : Around World Value) : Around World (Except InvokeError Value) :=
  C.bind fun outcome => .pure (outcomeValue outcome)

/-- Around the callable that is run for call `i`. -/
def serving (C : Around World Unit) (i : Nat) (callable : Script.Callable) : Around World Value :=
  (C.bind (afterCallable i callable)).attempt

end Around

namespace Script

open CrossCall.Script.Action

variable {owners : List ThreadId} {past past' : List (Deed World)} {args : List Value}
  {t u : ThreadId} {d : Delegate} {C : Around World (Except InvokeError Value)}
  {ran ran' : ThreadId → Around World Value → List Way → Except Payload Value → Prop}
  {ways : List Way} {r : Except Payload Value}

/-- As part `C` of thread `t` the call through the delegate's queue has been made, under number
`i`. -/
def Makes (past : List (Deed World)) (t : ThreadId) (C : Around World (Except InvokeError Value))
    (d : Delegate) (q : Queue) (args : List Value) (i : Nat) : Prop :=
  ∃ deed ∈ past, deed.moment.self = t ∧ deed.state.calls.size = i ∧
    deed.left = C.whole (callThrough q d.bound d.callable args (d.callable.target.run args))

/-- By these deeds a call through the delegate has been performed as part `C` of thread `t`. It and
the calls inside it have gone these ways, and the innermost callable came to `r`. What its own
callable has done is told by `ran`: it was run on the spot, or where the queue may run it, and then
for this very call. -/
inductive Went (owners : List ThreadId) (past : List (Deed World)) (args : List Value)
    (ran : ThreadId → Around World Value → List Way → Except Payload Value → Prop) (d : Delegate)
    (t : ThreadId) (C : Around World (Except InvokeError Value)) :
    List Way → Except Payload Value → Prop where
  | here {ways : List Way} {r : Except Payload Value} :
      staysHere owners t d.queue → ran t C.onTheSpot ways r →
      (tryInvoke d args).Performed past t C (Way.here.gives (relayed r ways)) →
      Went owners past args ran d t C (.here :: ways) r
  | told {q : Queue} {u : ThreadId} {C' : Around World Unit} {i : Nat} {ways : List Way}
      {r : Except Payload Value} :
      ¬ staysHere owners t d.queue → d.queue = some q → Makes past t C d q args i →
      RunsOn owners t q u → ran u (C'.serving i d.callable) ways r →
      (tryInvoke d args).Performed past t C (Way.told.gives (relayed r ways)) →
      Went owners past args ran d t C (.told :: ways) r
  /-- The caller was told nothing of what became of the call. -/
  | untold {way : Way} {r : Except Payload Value} :
      ¬ staysHere owners t d.queue → ¬ way.isComplete →
      (tryInvoke d args).Performed past t C (way.gives r) →
      Went owners past args ran d t C [way] r

theorem Makes.later {q : Queue} {i : Nat} (h : Makes past t C d q args i)
    (hpast : past <:+ past') : Makes past' t C d q args i :=
  h.imp fun _ hdeed => ⟨hpast.subset hdeed.1, hdeed.2⟩

theorem Went.later (h : Went owners past args ran d t C ways r) (hpast : past <:+ past')
    (hran : ∀ u C ways r, ran u C ways r → ran' u C ways r) :
    Went owners past' args ran' d t C ways r := by
  cases h with
  | here hstays hr hp => exact .here hstays (hran _ _ _ _ hr) (hp.later hpast)
  | told haway hq hmakes hruns hr hp =>
    exact .told haway hq (hmakes.later hpast) hruns (hran _ _ _ _ hr) (hp.later hpast)
  | untold haway hway hp => exact .untold haway hway (hp.later hpast)

/-- By these deeds thread `t` has run the callable with this outcome. If the callable passes the
call on, then the call has been made, and its outcome is what that call came to. -/
def Target.Came (owners : List ThreadId) (past : List (Deed World)) (args : List Value) :
    Target → ThreadId → Around World Value → Except Payload Value → Prop
  | .relay ⟨⟨target, arity, identity⟩, queue, bound, last⟩, t, C, r =>
    ((Target.relay ⟨⟨target, arity, identity⟩, queue, bound, last⟩).run args).Performed past t C r ∧
      ∃ res, (∃ ways r₀, Went owners past args
        (fun u C ways r => ways = [] ∧ target.Came owners past args u C r)
        ⟨⟨target, arity, identity⟩, queue, bound, last⟩ t C.relaying ways r₀ ∧
          (outcomes r₀ ways).head? = some res) ∧ r = res.map outcomeValue
  | target, t, C, r => (target.run args).Performed past t C r

/-- A call through the delegate has come to this, by what its callable came to. -/
def Comes (owners : List ThreadId) (past : List (Deed World)) (args : List Value) (d : Delegate)
    (t : ThreadId) (C : Around World (Except InvokeError Value))
    (res : Except Payload (Except InvokeError Value)) : Prop :=
  ∃ ways r, Went owners past args
    (fun u C ways r => ways = [] ∧ d.callable.target.Came owners past args u C r) d t C ways r ∧
      (outcomes r ways).head? = some res

theorem Target.came_relay {d : Delegate} {C : Around World Value} {r : Except Payload Value} :
    (Target.relay d).Came owners past args t C r ↔
      ((Target.relay d).run args).Performed past t C r ∧
        ∃ res, Comes owners past args d t C.relaying res ∧ r = res.map outcomeValue :=
  Iff.rfl

theorem Target.Came.performed {target : Target} {C : Around World Value} {r : Except Payload Value}
    (h : target.Came owners past args t C r) : (target.run args).Performed past t C r := by
  cases target with
  | relay d => exact h.1
  | _ => exact h

theorem Target.Came.later (hpast : past <:+ past') : (target : Target) → {t : ThreadId} →
    {C : Around World Value} → {r : Except Payload Value} → target.Came owners past args t C r →
    target.Came owners past' args t C r
  | .relay ⟨⟨target, arity, identity⟩, queue, bound, last⟩, t, C, r, h => by
    obtain ⟨hrun, res, ⟨ways, r₀, hwent, hhead⟩, rfl⟩ := h
    refine ⟨hrun.later hpast, res, ⟨ways, r₀, hwent.later hpast fun u C ways r h => ?_, hhead⟩, rfl⟩
    exact ⟨h.1, Target.Came.later hpast target h.2⟩
  | .named _, _, _, _, h | .double, _, _, _, h | .adder _, _, _, _, h | .scaler _, _, _, _, h
  | .counter _, _, _, _, h | .gated _ _, _, _, _, h | .method _ _, _, _, _, h
  | .scaled _ _, _, _, _, h | .sleeper _ _, _, _, _, h | .custom _ _, _, _, _, h =>
    Program.Performed.later h hpast

theorem Comes.later {res : Except Payload (Except InvokeError Value)}
    (h : Comes owners past args d t C res) (hpast : past <:+ past') :
    Comes owners past' args d t C res := by
  obtain ⟨ways, r, hwent, hhead⟩ := h
  refine ⟨ways, r, hwent.later hpast fun u C ways r h => ?_, hhead⟩
  exact ⟨h.1, Target.Came.later hpast _ h.2⟩

/-! ### Orders -/

/-- A call that goes to a queue. -/
structure Order where
  caller : ThreadId
  queue : Queue
  callable : Callable
  args : List Value

/-- The callable of the order has come to this where it may be run, and for call `i`. -/
def Order.Gives (o : Order) (owners : List ThreadId) (past : List (Deed World)) (i : Nat)
    (r : Except Payload Value) : Prop :=
  ∃ (u : ThreadId) (C : Around World Unit), RunsOn owners o.caller o.queue u ∧
    o.callable.target.Came owners past o.args u (C.serving i o.callable) r

theorem Order.Gives.later {o : Order} {i : Nat} {r : Except Payload Value}
    (h : o.Gives owners past i r) (hpast : past <:+ past') : o.Gives owners past' i r := by
  obtain ⟨u, C, hu, hr⟩ := h
  exact ⟨u, C, hu, Target.Came.later hpast o.callable.target hr⟩

/-- An outcome that is stored is one of these. -/
def Stores (S : Except Payload Value → Prop) : Phase Value → Prop
  | .completed v => S (.ok v)
  | .panicked text => ∃ p : Payload, S (.error p) ∧ p.message = text
  | _ => True

theorem Stores.mono {S S' : Except Payload Value → Prop} {phase : Phase Value}
    (h : Stores S phase) (hS : ∀ r, S r → S' r) : Stores S' phase := by
  cases phase with
  | completed v => exact hS _ h
  | panicked text => exact h.imp fun p hp => ⟨hS _ hp.1, hp.2⟩
  | _ => trivial

/-- Whatever the thread `u` may run of these orders. -/
def Item.Fits (owners : List ThreadId) (orders : List Order) (u : ThreadId) (item : Item) : Prop :=
  match item.work with
  | .envelope call callable args => ∃ o, orders[call]? = some o ∧ o.callable = callable ∧
      o.args = args ∧ RunsOn owners o.caller o.queue u
  | .task _ => True

theorem Item.Fits.later {b b' : Books World Order} {item : Item} (h : item.Fits owners b.notes u)
    (hle : b ≤ b') : item.Fits owners b'.notes u := by
  obtain ⟨number, work⟩ := item
  cases work with
  | envelope call callable args => exact h.imp fun o ho => ⟨Books.note_le hle ho.1, ho.2⟩
  | task t => trivial

namespace World

/-- The state fits the orders made so far. -/
structure Fits (w : World) (owners : List ThreadId) (b : Books World Order) : Prop where
  threads : w.workers.map Worker.thread = owners
  size : w.calls.size = b.notes.length
  stores (i : Nat) (c : Call Value) (o : Order) : w.calls[i]? = some c → b.notes[i]? = some o →
    Stores (o.Gives owners b.past i) c.phase
  waiting (v : Nat) (x : Worker Item) (item : Item) : w.workers[v]? = some x → item ∈ x.items →
    item.Fits owners b.notes x.thread
  shelved (items : List Item) (item : Item) (u : ThreadId) : items ∈ w.shelves → item ∈ items →
    item.Fits owners b.notes u

theorem Fits.next {b : Books World Order} {w : World} (h : w.Fits owners b) (d : Deed World) :
    w.Fits owners (b.next d) where
  threads := h.threads
  size := h.size
  stores i c o hc ho := (h.stores i c o hc ho).mono fun _ hr => hr.later (List.suffix_cons _ _)
  waiting := h.waiting
  shelved := h.shelved

end World
end Script
end CrossCall
