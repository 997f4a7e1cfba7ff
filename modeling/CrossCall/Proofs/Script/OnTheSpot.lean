import CrossCall.Proofs.Script.Objects

/-! Calls that need no other thread. On the spot the callable is run as it is; through a queue that
runs items where they are handed in, it is run behind the gate, its outcome is stored and the signal
raised before the caller begins to wait, so the caller finds a permit whatever its bound. -/

namespace CrossCall.Script

open CrossCall.Script.Action

/-- Thread `t` makes a call through this queue on the spot. -/
inductive OnTheSpot (t : ThreadId) (w : World) : Option Queue → Prop where
  | direct : OnTheSpot t w none
  | current (q : Queue) : q.kind = .current → OnTheSpot t w (some q)
  /-- The thread is the one that drains the queue. -/
  | own (q : Queue) (v : Nat) (x : Worker Item) : q.kind = .worker v → w.workers[v]? = some x →
      x.thread = t → OnTheSpot t w (some q)

variable {α : Type} {t : ThreadId} {own : List Nat} {i : Nat} {P : World → Prop} {w : World}
  {R : Action α → World → Prop} {callable : Callable} {args : List Value} {o : World}
  {Q : Except Payload Value → World → Prop}

/-- What a call through a queue gives, by how its callable ended. -/
def throughQueue (r : Except Payload Value) : Except InvokeError Value :=
  r.mapError fun p => .panicked p.message

theorem takeOutcome_outcomePhase (r : Except Payload Value) :
    Call.takeOutcome (Call.outcomePhase (r.mapError Payload.message)) = throughQueue r := by
  cases r <;> rfl

/-! ### On the spot -/

theorem Answers.ends_here (hcallable : Answers callable args o Q) (hw : w.objects = o)
    (hown : ∀ j ∈ own, j < w.calls.size) :
    ((callable.target.run args).bind fun v => .pure (Except.ok (ε := InvokeError) v)).Ends t
      (World.Beside own) (World.Confined own)
      (fun r w => ∃ r₀, r = r₀.map .ok ∧ Q r₀ w.objects) w := by
  rw [Program.bind_pure_eq_mapResult]
  exact (hcallable t own w hw hown).mapResult _ (World.Beside.refl own)

/-- Whether a thread is that of a worker does not depend on what others do meanwhile. -/
theorem World.Beside.thread {w' : World} {v : Nat} {x : Worker Item} (h : w.Beside own w')
    (hx : w.workers[v]? = some x) : ∃ x', w'.workers[v]? = some x' ∧ x'.thread = x.thread := by
  have hmap := congrArg (·[v]?) h.workers
  simp only [List.getElem?_map, hx, Option.map_some] at hmap
  obtain ⟨x', hx', hsame⟩ := Option.map_eq_some_iff.mp hmap
  have hthread : x'.unlocked.thread = x.unlocked.thread := by rw [hsame]
  exact ⟨x', hx', hthread⟩

theorem Answers.ends_onTheSpot {queue : Option Queue} (hway : OnTheSpot t w queue)
    (hcallable : Answers callable args o Q) (hw : w.objects = o)
    (hown : ∀ j ∈ own, j < w.calls.size) (bound : WaitBound) :
    (invokeWith queue bound callable args (callable.target.run args)).Ends t
      (World.Beside own) (World.Confined own)
      (fun r w => ∃ r₀, r = r₀.map .ok ∧ Q r₀ w.objects) w := by
  have hreported (q : Queue) (w' : World) (hw' : w.Beside own w') :
      Reaches t own (fun p w => ∃ r, p.Ended r ∧ ∃ r₀, r = r₀.map .ok ∧ Q r₀ w.objects)
        ((report (.invokedInline q.name)).bind fun _ => (callable.target.run args).bind fun v =>
          .pure (Except.ok (ε := InvokeError) v)) w' := by
    refine Program.Leads.atomic fun m w'' hb _ => ⟨World.confined_report own w'' _, ?_⟩
    have hb := hw'.trans hb
    exact hcallable.ends_here (hb.objects.trans hw) fun j hj => hb.size ▸ hown j hj
  cases hway with
  | direct => exact hcallable.ends_here hw hown
  | current q hq =>
    obtain ⟨number, name, kind⟩ := q
    subst hq
    exact hreported _ w (.refl own w)
  | own q v x hq hx ht =>
    obtain ⟨number, name, kind⟩ := q
    subst hq
    refine Program.Leads.atomic fun m w' hb hm => ⟨⟨fun _ _ => rfl, rfl⟩, ?_⟩
    obtain ⟨x', hx', hthread⟩ := hb.thread hx
    have hhere : w'.workers[v]?.any (·.thread = m.self) = true := by
      rw [hx', Option.any_some, hthread, ht, hm]
      exact decide_eq_true rfl
    simp only [hhere, if_true]
    exact hreported ⟨number, name, .worker v⟩ w' hb

/-! ### Through a queue that runs the item at once -/

/-- The outcome is stored and the signal raised, while nobody waits yet. -/
theorem reaches_deliver {phase : Phase Value} {r : Except Payload Value} {k : Unit → Action α}
    (hw : w.Has own i { phase, holder := some t } P)
    (hk : ∀ w, World.Has own i
      { phase := Call.outcomePhase (r.mapError Payload.message), signal := { permits := 1 } } P w →
      Reaches t own R (k ()) w) :
    Reaches t own R ((onCall i (Call.deliver (r.mapError Payload.message))).bind k) w := by
  refine reaches_onCall hw fun m hm => .inl ⟨_, _, rfl, fun w hw => ?_⟩
  refine reaches_onCall hw fun m hm => .inl ⟨_, _, rfl, fun w hw => ?_⟩
  refine reaches_onCall hw fun m hm => .inl ⟨_, _, rfl, fun w hw => ?_⟩
  refine reaches_onCall hw fun m hm => .inl ⟨_, _, rfl, fun w hw => ?_⟩
  exact reaches_onCall hw fun m hm => .inr ⟨_, _, rfl, hk⟩

theorem reaches_afterCallable {r : Except Payload Value} {k : Unit → Action α}
    (hw : w.Has own i { phase := .running } P)
    (hk : ∀ w, World.Has own i
      { phase := Call.outcomePhase (r.mapError Payload.message), signal := { permits := 1 } } P w →
      Reaches t own R (k ()) w) :
    Reaches t own R ((afterCallable i callable r).bind k) w := by
  refine reaches_onCall hw fun m hm => .inl ⟨_, _, rfl, fun w hw => ?_⟩
  refine reaches_onCall hw fun m' _ => .inr ⟨_, _, rfl, fun w hw => ?_⟩
  rw [hm] at hw
  cases r with
  | ok v => exact reaches_deliver hw hk
  | error p =>
    show Reaches t own R (((report (.targetPanicked callable.text p.message)).bind fun _ =>
      onCall i (Call.deliver (.error p.message))).bind k) w
    rw [Program.bind_assoc]
    refine reaches_report hw fun w hw => ?_
    exact reaches_deliver (r := .error p) hw hk

theorem Answers.reaches_executeCall (hcallable : Answers callable args o Q) {k : Unit → Action α}
    (hw : w.Has own i {} (· = o))
    (hk : ∀ r w, World.Has own i
      { phase := Call.outcomePhase (r.mapError Payload.message), signal := { permits := 1 } }
      (Q r) w → Reaches t own R (k ()) w) :
    Reaches t own R ((executeCall i callable (callable.target.run args)).bind k) w := by
  rw [executeCall_eq]
  refine reaches_onCall hw fun m hm => .inl ⟨_, _, rfl, fun w hw => ?_⟩
  refine reaches_onCall hw fun m' _ => .inr ⟨_, _, rfl, fun w hw => ?_⟩
  show Reaches t own R
    (((callable.target.run args).attempt.bind (afterCallable i callable)).bind k) w
  rw [Program.bind_assoc]
  exact reaches_callable hcallable hw fun r w hw => reaches_afterCallable hw (hk r)

/-- A caller who finds a permit when it comes takes it and the outcome, whatever its bound. -/
theorem ends_collect {q : Queue} {bound : WaitBound} {phase : Phase Value}
    (hw : w.Has own i { phase, signal := { permits := 1 } } P) :
    (afterEnqueue i q bound (.ok ())).Ends t (World.Beside own) (World.Confined own)
      (fun r w => r = .ok (Call.takeOutcome phase) ∧ P w.objects) w := by
  refine reaches_onCall hw fun m hm => .inl ⟨_, _, rfl, fun w hw => ?_⟩
  refine reaches_onCall hw fun m hm => .inl ⟨_, _, rfl, fun w hw => ?_⟩
  refine reaches_onCall hw fun m hm => .inl ⟨_, _, rfl, fun w hw => ?_⟩
  refine reaches_onCall hw fun m hm => .inl ⟨_, _, rfl, fun w hw => ?_⟩
  refine reaches_onCall hw fun m hm => .inr ⟨_, _, rfl, fun w hw => ?_⟩
  have hthere (w : World) (hw : w.Has own i { phase := .settled, signal := {} } P) :
      Reaches t own (fun p w => ∃ r, p.Ended r ∧ r = .ok (Call.takeOutcome phase) ∧ P w.objects)
        (.pure (Call.takeOutcome phase)) w :=
    .there fun w' hb => ⟨_, rfl, rfl, (hw.beside hb).objects⟩
  show Reaches t own _ (afterCollect q bound (Call.takeOutcome phase)) w
  revert hthere
  cases Call.takeOutcome phase with
  | ok v => exact fun hthere => hthere w hw
  | error e => exact fun hthere => reaches_report hw hthere

theorem Answers.ends_inline {q : Queue} (hq : q.kind = .inline)
    (hcallable : Answers callable args o Q) (hw : w.objects = o)
    (hown : ∀ j ∈ own, j < w.calls.size) (bound : WaitBound) :
    (invokeWith (some q) bound callable args (callable.target.run args)).Ends t
      (World.Beside own) (World.Confined own)
      (fun r w => ∃ r₀, r = .ok (throughQueue r₀) ∧ Q r₀ w.objects) w := by
  obtain ⟨number, name, kind⟩ := q
  subst hq
  refine Program.Leads.atomic fun m w' hb hm => ⟨⟨fun j hj => ?_, rfl⟩, ?_⟩
  · have hne : j ≠ w'.calls.size := Nat.ne_of_lt (hb.size ▸ hown j hj)
    exact Array.getElem?_push.trans (if_neg hne)
  have hnew : World.Has own w'.calls.size {} (· = o) { w' with calls := w'.calls.push {} } := by
    refine ⟨fun hmem => ?_, fun j hj => ?_, Array.getElem?_push_size, hb.objects.trans hw⟩
    · exact absurd (hown _ hmem) (hb.size ▸ Nat.lt_irrefl _)
    · rw [Array.size_push, hb.size]
      exact Nat.lt_succ_of_lt (hown j hj)
  refine reaches_report hnew fun w hw => ?_
  show Reaches t own _ (((executeCall _ callable (callable.target.run args)).bind
    fun _ => .pure (.ok ())).bind (afterEnqueue _ _ bound)) w
  rw [Program.bind_assoc]
  refine hcallable.reaches_executeCall hw fun r w hw => (ends_collect hw).mono ?_
  rintro p w ⟨_, hend, rfl, hQ⟩
  exact ⟨_, hend, r, congrArg Except.ok (takeOutcome_outcomePhase r), hQ⟩

end CrossCall.Script
