import CrossCall.Proofs.Script.Honoring

/-! Machines of workers and of threads that use them. The threads make calls, hand tasks to queues
and exit workers, one after another and each as it likes; a worker's thread begins or drains its
worker. However they take turns, whoever has made a call has been told what some thread that the
call may be run on came to, or that it was refused or timed out. -/

namespace CrossCall.Script

open CrossCall.Script.Action

/-- Makes calls, hands tasks to queues and exits workers. What is done next may depend on how all
that ended. -/
inductive UsesQueues : Action Bool → Prop where
  | done (again : Bool) : UsesQueues (.pure again)
  | call (d : Delegate) (args : List Value)
      (next : Except Payload (Except InvokeError Value) → Action Bool) :
      (∀ r, UsesQueues (next r)) → UsesQueues ((tryInvoke d args).attempt.bind next)
  | post (q : Queue) (task : Task)
      (next : Except Payload (Except DispatchError Unit) → Action Bool) :
      (∀ r, UsesQueues (next r)) → UsesQueues ((post q task).attempt.bind next)
  | exit (v : Nat) (next : Unit → Action Bool) :
      (∀ x, UsesQueues (next x)) → UsesQueues ((exitWorker v).bind next)

/-- Thread `t` uses queues, or is the thread of a worker. -/
inductive Engaged (owners : List ThreadId) (t : ThreadId) : Thread World → Prop where
  | customer (rest : Action Bool) : UsesQueues rest → Engaged owners t ⟨some rest, .pure false⟩
  | starting (v : Nat) : owners[v]? = some t → Engaged owners t ⟨some (firstTurn v), drainTurn v⟩
  | draining (v : Nat) : owners[v]? = some t → Engaged owners t ⟨some (drainTurn v), drainTurn v⟩

/-- No call has been made and nothing waits; the workers, open or closed, have the threads
`owners`. -/
structure Begins (owners : List ThreadId) (machine : Machine World) : Prop where
  calls : machine.shared.calls = #[]
  threads : machine.shared.workers.map Worker.thread = owners
  waiting : ∀ x ∈ machine.shared.workers, x.items = []
  shelved : ∀ items ∈ machine.shared.shelves, items = []
  engaged (t : ThreadId) (thread : Thread World) : machine.threads[t]? = some thread →
    Engaged owners t thread

variable {owners : List ThreadId} {t : ThreadId}

theorem alwaysHonors_post (q : Queue) (task : Task) : AlwaysHonors owners (post q task) :=
  (alwaysHonors_of_lessening (.run (.atomic fun _ _ => .of_same rfl rfl rfl))).bind fun n =>
    (alwaysHonors_task n task).enqueue q (some n)

theorem UsesQueues.honors {p : Action Bool} (h : UsesQueues p) : AlwaysHonors owners p := by
  induction h with
  | done again => exact alwaysHonors_pure again
  | call d args next _ ih => exact (alwaysHonors_tryInvoke d args).attempt.bind ih
  | post q task next _ ih => exact (alwaysHonors_post q task).attempt.bind ih
  | exit v next _ ih => exact (alwaysHonors_of_lessening (.run (World.lessens_exit v))).bind ih

theorem alwaysHonors_firstTurn (v : Nat) : AlwaysHonors owners (firstTurn v) := by
  refine (alwaysHonors_of_lessening (.run (.guarded fun m w x hx => ?_))).bind fun name => ?_
  · obtain ⟨name, -, rfl⟩ := Option.map_eq_some_iff.mp hx
    exact .refl w
  · exact (alwaysHonors_of_lessening (lessening_report _)).bind fun _ => alwaysHonors_pure true

theorem Engaged.honors {thread : Thread World} (h : Engaged owners t thread) :
    (∀ rest b, thread.rest = some rest → Honors owners rest t .turn (fun _ _ => True) b) ∧
      ∀ b, Honors owners thread.again t .turn (fun _ _ => True) b := by
  cases h with
  | customer rest hrest =>
    refine ⟨fun p b hp => Option.some.inj hp ▸ hrest.honors t _ _ b fun _ _ _ => trivial, ?_⟩
    exact fun _ => trivial
  | starting v hv =>
    refine ⟨fun p b hp => ?_, fun b => honors_drainTurn hv⟩
    exact Option.some.inj hp ▸ alwaysHonors_firstTurn v t _ _ b fun _ _ _ => trivial
  | draining v hv =>
    exact ⟨fun p b hp => Option.some.inj hp ▸ honors_drainTurn hv, fun b => honors_drainTurn hv⟩

theorem endures_fits : Endures fun (b : Books World Order) (w : World) => w.Fits owners b :=
  fun _ d _ hw => hw.next d

theorem Begins.lawful {machine : Machine World} (h : Begins owners machine) :
    Chronicle.Lawful (fun b w => w.Fits owners b) (fun _ => False) ⟨machine, []⟩ [] where
  holds := by
    refine ⟨h.threads, congrArg Array.size h.calls, fun i c o hc _ => ?_, fun v x item hx hi => ?_,
      fun items item u hitems hi => ?_⟩
    · rw [h.calls] at hc
      cases hc
    · rw [h.waiting x (List.mem_of_getElem? hx)] at hi
      cases hi
    · rw [h.shelved items hitems] at hi
      cases hi
  rest u left again _ hu := (h.engaged u _ hu).honors.1 left _ rfl
  again u thread b hu _ := (h.engaged u thread hu).honors.2 b

/-- The workers keep their threads. -/
theorem Begins.threads_of_reachable {machine : Machine World} {c : Chronicle World}
    (h : Begins owners machine) (hr : Reachable Chronicle.move (· = ⟨machine, []⟩) c) :
    c.machine.shared.workers.map Worker.thread = owners := by
  obtain ⟨notes, hc⟩ := Chronicle.lawful_of_reachable endures_fits h.lawful hr
  exact hc.holds.threads

/-- What a call that has been made came to, whoever made it and wherever. -/
theorem Begins.comes_of_performed {machine : Machine World} {c : Chronicle World} {d : Delegate}
    {args : List Value} {C : Around World (Except InvokeError Value)}
    {res : Except Payload (Except InvokeError Value)}
    (h : Begins owners machine) (hr : Reachable Chronicle.move (· = ⟨machine, []⟩) c)
    (hp : (tryInvoke d args).Performed c.past t C res) : Comes owners c.past args d t C res := by
  have hlasts : Program.Lasts fun (b : Books World Order) res =>
      Comes owners b.past args d t C res :=
    fun _ _ _ hle hres => hres.later (Books.past_le hle)
  obtain ⟨b, hb, hres⟩ := Chronicle.promised_of_performed endures_fits h.lawful rfl
    (fun b => honors_tryInvoke d args C) hlasts hr hp
  exact hres.later hb

end CrossCall.Script
