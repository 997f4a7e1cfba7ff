import CrossCall.Proofs.Script.OnTheSpot

/-! Callables that need nobody else. What such a callable answers, and which objects it leaves, is
settled by its arguments and the objects it finds: neither the thread that runs it nor the calls on
their way beside it make a difference. Of the callables of a script these are all but those that
stand before a closed gate or pass a call on to another thread. -/

namespace CrossCall.Script

open CrossCall.Script.Action

variable {α β ρ : Type} {t : ThreadId} {p : Action α} {f : α → Action β} {o o' after : World}
  {r : Except Payload α}

/-- On thread `t` and the objects `o`, whatever goes on beside it, the program ends with the result
`r` and leaves the objects `after`. -/
def Yields (t : ThreadId) (p : Action α) (o : World) (r : Except Payload α) (after : World) :
    Prop :=
  ∀ (own : List Nat) (w : World), w.objects = o → (∀ i ∈ own, i < w.calls.size) →
    p.Ends t (World.Beside own) (World.Confined own) (fun r' w => r' = r ∧ w.objects = after) w

theorem yields_ended (h : p.Ended r) (o : World) : Yields t p o r o :=
  fun _ _ hw _ => .there fun _ hb => ⟨r, h, rfl, hb.objects.trans hw⟩

theorem yields_pure (x : α) (o : World) : Yields t (.pure x) o (.ok x) o :=
  yields_ended (p := .pure x) rfl o

theorem yields_unwind (e : Payload) (o : World) :
    Yields t (.unwind e : Action α) o (.error e) o :=
  yields_ended (p := (.unwind e : Action α)) (r := .error e) rfl o

theorem yields_ofExcept (r : Except Payload α) (o : World) : Yields t (.ofExcept r) o r o := by
  cases r with
  | ok x => exact yields_pure x o
  | error e => exact yields_unwind e o

/-- Two programs, one after the other. -/
theorem Yields.bind {x : α} {r : Except Payload β} (h : Yields t p o (.ok x) o')
    (hf : Yields t (f x) o' r after) : Yields t (p.bind f) o r after := by
  intro own w hw hown
  have hends := (h own w hw hown).keep (I := fun w => ∀ i ∈ own, i < w.calls.size)
    (fun _ _ hb hI i hi => hb.size ▸ hI i hi) (fun _ _ hc hI => hc.size hI) hown
  refine .around (Program.isAround_bind f) (World.Beside.refl own) (hends.mono fun q w hq => ?_)
  obtain ⟨⟨_, hend, rfl, hw⟩, hown⟩ := hq
  cases q with
  | pure y => cases hend; exact hf own w hw hown
  | unwind e => cases hend
  | _ => cases hend

theorem Yields.bind_error {e : Payload} (h : Yields t p o (.error e) after) (f : α → Action β) :
    Yields t (p.bind f) o (.error e) after := by
  intro own w hw hown
  refine .around (Program.isAround_bind f) (World.Beside.refl own)
    ((h own w hw hown).mono fun q w hq => ?_)
  obtain ⟨_, hend, rfl, hw⟩ := hq
  cases q with
  | pure y => cases hend
  | unwind e =>
    cases hend
    exact .there fun w' hb => ⟨.error e, rfl, rfl, hb.objects.trans hw⟩
  | _ => cases hend

/-- One atomic step that keeps clear of calls and workers. -/
theorem yields_atomic {g : Moment → World → ρ × World} {x : ρ}
    (h : ∀ (m : Moment) w, m.self = t → w.objects = o → (g m w).1 = x ∧ (g m w).2.objects = after ∧
      (g m w).2.calls = w.calls ∧ (g m w).2.workers = w.workers) :
    Yields t (.run (.atomic g)) o (.ok x) after := by
  intro own w hw hown
  show Program.Ends t _ _ _ ((Program.run (.atomic g)).bind .pure) w
  refine .atomic fun m w' hb hm => ?_
  obtain ⟨hx, ho, hcalls, hworkers⟩ := h m w' hm (hb.objects.trans hw)
  refine ⟨⟨fun i _ => by rw [hcalls], hworkers⟩, .there fun w'' hb' => ?_⟩
  exact ⟨_, rfl, congrArg Except.ok hx, hb'.objects.trans ho⟩

/-- One guarded step that is possible and keeps clear of calls and workers. -/
theorem yields_guarded {g : Moment → World → Option (ρ × World)} {x : ρ}
    (h : ∀ (m : Moment) w, m.self = t → w.objects = o → ∃ w', g m w = some (x, w') ∧
      w'.objects = after ∧ w'.calls = w.calls ∧ w'.workers = w.workers) :
    Yields t (.run (.guarded g)) o (.ok x) after := by
  intro own w hw hown
  refine .of_going fun m w' hb hm => ?_
  obtain ⟨w'', hg, ho, hcalls, hworkers⟩ := h m w' hm (hb.objects.trans hw)
  refine ⟨w'', .pure x, ?_, ⟨fun i _ => by rw [hcalls], hworkers⟩, .there fun w₁ hb' => ?_⟩
  · simp only [Program.run, Program.step, Routine.guarded, hg]
  · exact ⟨_, rfl, rfl, hb'.objects.trans ho⟩

theorem yields_sleep (span : Nat) (o : World) : Yields t (.sleep span) o (.ok ()) o := by
  intro own w hw hown
  refine .of_going fun m w₁ hb _ => ⟨w₁, _, rfl, ⟨fun _ _ => rfl, rfl⟩, ?_⟩
  have hstep (m' : Moment) (w : World) :
      (Program.perform (.sleep span) (some (m.now + span)) Program.pure).step m' w =
        if m.now + span ≤ m'.now then .going w (.pure ()) else .blocked := by
    by_cases h : m.now + span ≤ m'.now <;>
      simp only [Program.step, Routine.sleep, h, if_true, if_false]
  refine .step (fun w' hb => ⟨m.now + span, fun m' _ hle => ⟨w', .pure (), ?_⟩⟩) ?_ ?_
  · rw [hstep, if_pos hle]
  · intro m' w' w'' q hb' hm' hgoing
    rw [hstep] at hgoing
    split at hgoing
    · cases hgoing
      exact ⟨fun _ _ => rfl, rfl⟩
    · cases hgoing
  · intro m' w' w'' q hb' hm' hgoing
    rw [hstep] at hgoing
    split at hgoing
    · cases hgoing
      exact .there fun w₂ hb₂ => ⟨_, rfl, rfl, ((hb.trans hb').trans hb₂).objects.trans hw⟩
    · cases hgoing

/-! ### What callables do -/

/-- The objects with one more entry in the log. -/
def World.noted (o : World) (entry : Value) : World := { o with log := o.log.push ("", entry) }

/-- The objects once the log tells of a call with these arguments. -/
def World.notedCall (o : World) (name : String) (args : List Value) : World :=
  o.noted (.list [.text name, .list args])

/-- The entries of the log, whoever made them. -/
def World.entries (w : World) : List Value := w.log.toList.map Prod.snd

theorem World.objects_append (w : World) (t : ThreadId) (entry : Value) :
    (w.append t entry).objects = w.objects.noted entry := by
  simp only [World.objects, World.append, World.noted, Array.map_push]

theorem yields_log (entry : Value) (o : World) : Yields t (log entry) o (.ok ()) (o.noted entry) :=
  yields_atomic fun m w _ hw => ⟨rfl, hw ▸ w.objects_append m.self entry, rfl, rfl⟩

theorem yields_logCall (name : String) (args : List Value) (o : World) :
    Yields t (logCall name args) o (.ok ()) (o.notedCall name args) := yields_log _ o

/-- One step on the objects. -/
theorem yields_update {g : World → ρ × World} (h : ∀ w, (g w).1 = (g w.objects).1 ∧
      (g w).2.objects = (g w.objects).2 ∧ (g w).2.calls = w.calls ∧ (g w).2.workers = w.workers)
    (o : World) : Yields t (update g) o (.ok (g o).1) (g o).2 :=
  yields_atomic fun _ w _ hw => hw ▸ h w

/-- One step on the store. -/
theorem yields_onStore (act : Store → Except Payload Value × Store) (o : World) :
    Yields t (onStore act) o (act o.toStore).1 { o with toStore := (act o.toStore).2 } :=
  (yields_update (fun _ => ⟨rfl, rfl, rfl, rfl⟩) o).bind (yields_ofExcept _ _)

namespace World

theorem setGate_setGate (o : World) (name : String) (g g' : Gate) :
    (o.setGate name g).setGate name g' = o.setGate name g' := by
  simp only [setGate, assign, List.filter_cons, List.filter_filter, Bool.and_self, ne_eq,
    not_true_eq_false, decide_false, Bool.false_eq_true, if_false]

theorem gate_setGate {g : Gate} (h : g.isOpen = true) (o : World) (name : String) :
    (o.setGate name g).gate name = g := by
  obtain ⟨isOpen, entered, waiting⟩ := g
  obtain rfl : isOpen = true := h
  simp only [gate, setGate, assign, List.lookup_cons_self, Option.getD_some, Bool.true_or]

/-- One more has come through the gate. -/
def passed (o : World) (name : String) : World :=
  o.setGate name { o.gate name with entered := (o.gate name).entered + 1 }

end World

/-- Whoever comes to an open gate passes. -/
theorem yields_passGate {name : String} (h : (o.gate name).isOpen = true) :
    Yields t (passGate name) o (.ok ()) (o.passed name) := by
  let g : Gate := { o.gate name with
    entered := (o.gate name).entered + 1, waiting := t :: (o.gate name).waiting }
  have hcome : Yields t (.run (.atomic fun m w => ((), w.setGate name { w.gate name with
      entered := (w.gate name).entered + 1, waiting := m.self :: (w.gate name).waiting })))
      o (.ok ()) (o.setGate name g) := by
    refine yields_atomic fun m w hm hw => ⟨rfl, ?_, rfl, rfl⟩
    subst hw hm
    rfl
  refine hcome.bind (yields_guarded fun m w hm hw => ?_)
  have hgate : w.gate name = g := by
    show w.objects.gate name = g
    rw [hw, World.gate_setGate (g := g) h]
  refine ⟨w.setGate name { g with waiting := g.waiting.erase m.self }, ?_, ?_, rfl, rfl⟩
  · simp only [hgate, show g.isOpen = true from h, if_true]
  · show w.objects.setGate name _ = _
    rw [hw, World.setGate_setGate, hm]
    simp only [g, List.erase_cons_head]
    rfl

/-- A function notes its arguments once, and computes its result from them. -/
theorem yields_named (f : FunctionName) (args : List Value) (o : World) :
    Yields t ((Target.named f).run args) o (f.eval args) (o.notedCall f.name args) :=
  (yields_logCall _ _ o).bind (yields_ofExcept _ _)

/-- With these objects the callable's way needs no other thread: gates that it passes are open, and
calls that it passes on stay on the thread. -/
def Target.IsLocal (o : World) : Target → Prop
  | .gated gate _ => (o.gate gate).isOpen
  | .relay ⟨⟨target, _, _⟩, queue, _, _⟩ =>
    target.IsLocal o ∧ ∀ q ∈ queue, q.kind = .inline ∨ q.kind = .current
  | _ => True

/-- The result and the objects after it are settled by the objects before it. -/
def Settled (p : Action α) (o : World) : Prop := ∃ r after, ∀ t, Yields t p o r after

theorem Settled.next {x : α} (h : ∀ t, Yields t p o (.ok x) o') (hf : Settled (f x) o') :
    Settled (p.bind f) o := by
  obtain ⟨r, after, hf⟩ := hf
  exact ⟨r, after, fun t => (h t).bind (hf t)⟩

theorem Settled.bind (h : Settled p o) (hf : ∀ x o', Settled (f x) o') : Settled (p.bind f) o := by
  obtain ⟨r, o', h⟩ := h
  cases r with
  | error e => exact ⟨.error e, o', fun t => (h t).bind_error f⟩
  | ok x => exact .next h (hf x o')

theorem settled_pure (x : α) (o : World) : Settled (.pure x) o := ⟨_, _, fun _ => yields_pure x o⟩

theorem settled_ofExcept (r : Except Payload α) (o : World) : Settled (.ofExcept r) o :=
  ⟨_, _, fun _ => yields_ofExcept r o⟩

theorem settled_log (entry : Value) (o : World) : Settled (log entry) o :=
  ⟨_, _, fun _ => yields_log entry o⟩

theorem settled_onStore (act : Store → Except Payload Value × Store) (o : World) :
    Settled (onStore act) o := ⟨_, _, fun _ => yields_onStore act o⟩

theorem settled_invokeWith {queue : Option Queue} (callable : Callable) {args : List Value}
    (hqueue : ∀ q ∈ queue, q.kind = .inline ∨ q.kind = .current) (bound : WaitBound)
    (h : Settled (callable.target.run args) o) :
    Settled (invokeWith queue bound callable args (callable.target.run args)) o := by
  obtain ⟨r, after, h⟩ := h
  have hcallable : Answers callable args o fun r' o' => r' = r ∧ o' = after := h
  have honTheSpot (hway : ∀ t w, OnTheSpot t w queue) :
      Settled (invokeWith queue bound callable args (callable.target.run args)) o := by
    refine ⟨r.map .ok, after, fun t own w hw hown => ?_⟩
    refine (hcallable.ends_onTheSpot (hway t w) hw hown bound).mono ?_
    rintro p w ⟨_, hend, _, rfl, rfl, hafter⟩
    exact ⟨_, hend, rfl, hafter⟩
  cases queue with
  | none => exact honTheSpot fun _ _ => .direct
  | some q =>
    rcases hqueue q rfl with hq | hq
    · refine ⟨.ok (throughQueue r), after, fun t own w hw hown => ?_⟩
      refine (hcallable.ends_inline hq hw hown bound).mono ?_
      rintro p w ⟨_, hend, _, rfl, rfl, hafter⟩
      exact ⟨_, hend, rfl, hafter⟩
    · exact honTheSpot fun _ _ => .current q hq

theorem settled_gated {gate : String} (h : (o.gate gate).isOpen = true) (value : Value)
    (args : List Value) : Settled ((Target.gated gate value).run args) o := by
  have hopen : ((o.noted (.text "gated enter")).gate gate).isOpen = true := h
  refine .next (fun _ => yields_log _ o) (.next (fun _ => yields_passGate hopen) ?_)
  refine (settled_log _ _).bind fun _ o => ?_
  split
  · exact ⟨_, _, fun _ => yields_unwind _ o⟩
  · exact settled_pure value o

theorem settled_sleeper (number nap : Nat) (args : List Value) (o : World) :
    Settled ((Target.sleeper number nap).run args) o := by
  refine ⟨.ok (.int number), { o with tally := { o.tally with runs := number :: o.tally.runs } },
    fun t => ?_⟩
  have hbegun := yields_update (t := t) (g := fun w : World =>
    ((), { w with tally := { w.tally with runs := number :: w.tally.runs } }))
    (fun _ => ⟨rfl, rfl, rfl, rfl⟩) o
  exact hbegun.bind ((yields_sleep nap _).bind (yields_pure _ _))

/-- What a local callable answers, and which objects it leaves, is settled by its arguments and the
objects that it finds. -/
theorem Target.settled (target : Target) (args : List Value) (o : World) (h : target.IsLocal o) :
    Settled (target.run args) o := by
  match target, h with
  | .named g, _ => exact ⟨_, _, fun _ => yields_named g args o⟩
  | .double, _ => exact settled_ofExcept _ o
  | .adder _, _ => exact (settled_log _ o).bind fun _ o => settled_ofExcept _ o
  | .scaler _, _ => exact (settled_log _ o).bind fun _ o => settled_ofExcept _ o
  | .counter _, _ => exact (settled_log _ o).bind fun _ o => settled_onStore _ o
  | .gated _ value, h => exact settled_gated h value args
  | .relay ⟨⟨target, arity, identity⟩, _, bound, _⟩, h =>
    have hcall := settled_invokeWith ⟨target, arity, identity⟩ h.2 bound (target.settled args o h.1)
    exact hcall.bind fun _ o => settled_pure _ o
  | .method _ _, _ =>
    refine (settled_log _ o).bind fun _ o => (settled_ofExcept _ o).bind fun _ o => ?_
    exact settled_onStore _ o
  | .scaled _ _, _ =>
    refine (settled_ofExcept _ o).bind fun _ o => (settled_log _ o).bind fun _ o => ?_
    exact settled_onStore _ o
  | .sleeper number nap, _ => exact settled_sleeper number nap args o
  | .custom _ _, _ => exact (settled_log _ o).bind fun _ o => settled_onStore _ o

end CrossCall.Script
