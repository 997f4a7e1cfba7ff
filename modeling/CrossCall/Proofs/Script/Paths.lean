import CrossCall.Proofs.Script.Handover
import CrossCall.Proofs.Script.Local

/-! The ways on which a call reaches its callable. A call on the spot is nothing but a run of the
callable; a call through a queue goes by a state of its own, an item and a signal. On every way the
callable is run once with the arguments of the call, so the objects end up the same, and the caller
gets the same value. The ways differ in what becomes of a panic: on the spot it unwinds into the
caller, through a queue it comes back as an error. What one run of the callable comes to is told by
`Yields`; of a callable that acts on the store it can be told what it is (`yields_custom`), and of
any other that needs no other thread that it is settled (`Target.settled`). -/

namespace CrossCall.Script

open CrossCall.Script.Action

/-- Nothing else runs on the machine, and in this way thread `t` calls through the delegate. The
flag tells whether a panic of the callable is caught on the way. -/
inductive Path (machine : Machine World) (t : ThreadId) : Bool → Delegate → Prop where
  | onTheSpot (d : Delegate) : machine.IsQuietBut [t] → OnTheSpot t machine.shared d.queue →
      Path machine t false d
  /-- The queue runs the item where it is handed in. -/
  | inline (d : Delegate) (q : Queue) : d.queue = some q → q.kind = .inline →
      machine.IsQuietBut [t] → Path machine t true d
  /-- The queue is that of an idle worker, which another thread drains. -/
  | worker (d : Delegate) (q : Queue) (v : Nat) (u : ThreadId) : d.queue = some q →
      d.bound = .infinite → q.kind = .worker v → IsIdle machine v u → t ≠ u →
      machine.IsQuietBut [t, u] → Path machine t true d

/-- However thread `t` calls through the delegate, and whatever it goes on with, it comes to the end
of the call, with these results; and `left` holds of what it leaves. -/
structure CallEnds (machine : Machine World) (t : ThreadId) (d : Delegate) (args : List Value)
    (left : World → Prop) (tried : Except Payload (Except InvokeError Value))
    (awaited : Except Payload (Option Value))
    (recorded : Delegate × Except Payload (Option Value)) : Prop where
  triedCall : ∀ k, machine.Runs t ((tryInvoke d args).attempt.bind k) →
    machine.Comes t (tryInvoke d args) k fun r w => r = tried ∧ left w
  awaitedCall : ∀ k, machine.Runs t ((asyncInvoke d args).attempt.bind k) →
    machine.Comes t (asyncInvoke d args) k fun r w => r = awaited ∧ left w
  recordedCall : ∀ k, machine.Runs t ((invoke d args).attempt.bind k) →
    machine.Comes t (invoke d args) k fun r w => r = .ok recorded ∧ left w

/-- From `w` to `w'` a callable that acts on the store has been run once, with these arguments. -/
structure RanOnce (name : String) (act : List Value → Store → Except Payload Value × Store)
    (args : List Value) (w w' : World) : Prop where
  /-- One run has been noted, and with it the arguments in their order. -/
  told : w'.entries = w.entries ++ [.list [.text name, .list args]]
  /-- The store is what the callable makes of the one it found, and all else is as it was. -/
  objects : w'.objects =
    { w.objects.notedCall name args with toStore := (act args w.toStore).2 }

variable {machine : Machine World} {t : ThreadId} {caught : Bool} {d : Delegate} {args : List Value}
  {after w w' : World} {r : Except Payload Value} {left : World → Prop} {name : String}
  {act : List Value → Store → Except Payload Value × Store}
  {tried : Except Payload (Except InvokeError Value)}

theorem asyncInvoke_eq (d : Delegate) (args : List Value) :
    asyncInvoke d args = (tryInvoke d args).mapResult (·.map Except.toOption) :=
  Program.bind_pure_eq_mapResult Except.toOption (tryInvoke d args)

theorem invoke_eq (d : Delegate) (args : List Value) :
    invoke d args = (tryInvoke d args).mapResult fun r => .ok (d.afterInvoke r) := rfl

/-- What a call gives that is tried, by how its callable ends. -/
def tryResult (caught : Bool) (r : Except Payload Value) :
    Except Payload (Except InvokeError Value) :=
  if caught then .ok (throughQueue r) else r.map .ok

theorem Path.comes (hpath : Path machine t caught d)
    (hcallable : ∀ t, Yields t (d.callable.target.run args) machine.shared.objects r after)
    (k : Except Payload (Except InvokeError Value) → Action Bool)
    (hr : machine.Runs t ((tryInvoke d args).attempt.bind k)) :
    machine.Comes t (tryInvoke d args) k
      fun r' w => r' = tryResult caught r ∧ w.objects = after := by
  have hanswers : Answers d.callable args machine.shared.objects
    fun r' o' => r' = r ∧ o' = after := hcallable
  obtain ⟨callable, queue, bound, last⟩ := d
  have halone {Q : Except Payload (Except InvokeError Value) → World → Prop} {p}
      (h : Program.Ends t (World.Beside []) (World.Confined []) Q p machine.shared) :
      p.Ends t Eq (fun _ _ => True) Q machine.shared :=
    h.weaken (fun w _ hw => hw ▸ .refl [] w) fun _ _ _ => trivial
  cases hpath with
  | onTheSpot _ hquiet hspot =>
    have hends := hanswers.ends_onTheSpot hspot rfl (List.forall_mem_nil _) bound
    refine (Machine.comes_of_ends hr hquiet (halone hends)).mono ?_
    rintro _ w ⟨_, rfl, rfl, hw⟩
    exact ⟨rfl, hw⟩
  | inline _ q hqueue hq hquiet =>
    obtain rfl : queue = some q := hqueue
    have hends := hanswers.ends_inline hq rfl (List.forall_mem_nil _) bound (t := t)
    refine (Machine.comes_of_ends hr hquiet (halone hends)).mono ?_
    rintro _ w ⟨_, rfl, rfl, hw⟩
    exact ⟨rfl, hw⟩
  | worker _ q v u hqueue hbound hq hidle hne hquiet =>
    obtain rfl : queue = some q := hqueue
    obtain rfl : bound = .infinite := hbound
    refine (hanswers.comes_worker hq hidle hne hquiet hr).mono ?_
    rintro _ w ⟨_, rfl, rfl, hw⟩
    exact ⟨rfl, hw⟩

/-- An account of 10, and a worker that has only been started. -/
def bank : World := { balances := [10], workers := [{ name := "clerk", thread := 1 }] }

/-- Pays out of the account and notes the amount; if there is too little, notes that and panics. -/
def paidOut (args : List Value) (s : Store) : Except Payload Value × Store :=
  match args, s.balances with
  | [.int n], [b] =>
    if b.toInt < n then (.error (.literal "too little"), { s with counters := 0 :: s.counters })
    else (.ok (.int n), ⟨[b - Int64.ofInt n], Int64.ofInt n :: s.counters⟩)
  | _, _ => (.error (.literal "no such account"), s)

/-- A thread that makes a call and ends, and the worker's thread, which begins or has ended. -/
def branch (d : Delegate) (args : List Value) (clerk : Option (Action Bool)) : Machine World :=
  { shared := bank
    threads := #[⟨some ((tryInvoke d args).attempt.bind fun _ => .pure false), .pure false⟩,
      ⟨clerk, drainTurn 0⟩] }

/-- The payment at the branch comes to its end in this way, after one run that leaves this store. -/
def BranchEnds (d : Delegate) (args : List Value) (clerk : Option (Action Bool))
    (tried : Except Payload (Except InvokeError Value)) (store : Store) : Prop :=
  (branch d args clerk).Comes 0 (tryInvoke d args) (fun _ => .pure false) fun r w =>
    r = tried ∧ w.entries = [.list [.text "pay out", .list args]] ∧ w.toStore = store

theorem CallEnds.branch {clerk : Option (Action Bool)} {awaited : Except Payload (Option Value)}
    {recorded : Delegate × Except Payload (Option Value)}
    (h : CallEnds (branch d args clerk) 0 d args (RanOnce "pay out" paidOut args bank) tried
      awaited recorded) :
    BranchEnds d args clerk tried (paidOut args bank.toStore).2 := by
  refine (h.triedCall _ ⟨_, rfl⟩).mono fun r w hw => ?_
  exact ⟨hw.1, hw.2.told, congrArg World.toStore hw.2.objects⟩

end CrossCall.Script
