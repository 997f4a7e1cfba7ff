import CrossCall.Proofs.Leads
import CrossCall.Proofs.Script.Calling

/-! What callables act on, and what belongs to the calls themselves. A callable that is run for
somebody else changes objects and log; the threads beside it bring calls on, report events and pass
the entrances of workers, and none of that reaches the objects. So what the callable does to the
objects it does however its call was made. -/

namespace CrossCall

/-- The same worker with nobody at its entrance. -/
def Worker.unlocked {ι : Type} (x : Worker ι) : Worker ι := { x with entrance := none }

namespace Script

open CrossCall.Script.Action

namespace World

/-- What callables act on: all but the calls, the workers, what queues and items keep, the events,
and under whose name an entry of the log stands. -/
def objects (w : World) : World :=
  { w with
    calls := #[], workers := [], shelves := [], kept := [], nextKept := 0, events := #[]
    log := w.log.map fun e => ("", e.2) }

/-- What is left when calls, workers and events are put aside. -/
def aside (w : World) : World := { w with calls := #[], workers := [], events := #[] }

/-- What other threads do while a program runs that keeps clear of the calls `own`: they bring these
calls on, report events and pass entrances. -/
structure Beside (own : List Nat) (w w' : World) : Prop where
  aside : w'.aside = w.aside
  size : w'.calls.size = w.calls.size
  calls : ∀ i, i ∉ own → w'.calls[i]? = w.calls[i]?
  workers : w'.workers.map Worker.unlocked = w.workers.map Worker.unlocked

/-- What a program does that keeps clear of the calls `own` and of all workers. -/
structure Confined (own : List Nat) (w w' : World) : Prop where
  calls : ∀ i ∈ own, w'.calls[i]? = w.calls[i]?
  workers : w'.workers = w.workers

/-- Call `i`, none of the calls `own`, is in this state, and `P` holds of the objects. -/
structure Has (own : List Nat) (i : Nat) (c : Call Value) (P : World → Prop) (w : World) :
    Prop where
  apart : i ∉ own
  size : ∀ j ∈ own, j < w.calls.size
  call : w.calls[i]? = some c
  objects : P w.objects

variable {own : List Nat} {i : Nat} {c c' : Call Value} {P : World → Prop} {w w' w'' : World}

theorem objects_aside (w : World) : w.aside.objects = w.objects := rfl

theorem calls_putCall_self (h : w.calls[i]? = some c) :
    ((callPart i).put w c').calls[i]? = some c' :=
  Array.getElem?_setIfInBounds_self_of_lt (Array.getElem?_eq_some_iff.mp h).1

theorem calls_putCall_ne {j : Nat} (h : i ≠ j) (w : World) (c : Call Value) :
    ((callPart i).put w c).calls[j]? = w.calls[j]? :=
  Array.getElem?_setIfInBounds_ne h

namespace Beside

theorem refl (own : List Nat) (w : World) : Beside own w w := ⟨rfl, rfl, fun _ _ => rfl, rfl⟩

theorem trans (h : Beside own w w') (h' : Beside own w' w'') : Beside own w w'' where
  aside := h'.aside.trans h.aside
  size := h'.size.trans h.size
  calls i hi := (h'.calls i hi).trans (h.calls i hi)
  workers := h'.workers.trans h.workers

theorem objects (h : Beside own w w') : w'.objects = w.objects := by
  rw [← objects_aside w', h.aside, objects_aside]

theorem mono {other : List Nat} (h : Beside own w w') (hsub : ∀ i ∈ own, i ∈ other) :
    Beside other w w' :=
  ⟨h.aside, h.size, fun i hi => h.calls i fun hown => hi (hsub i hown), h.workers⟩

end Beside

theorem Confined.mono {other : List Nat} (h : Confined own w w') (hsub : ∀ i ∈ other, i ∈ own) :
    Confined other w w' :=
  ⟨fun i hi => h.calls i (hsub i hi), h.workers⟩

theorem Confined.size (h : Confined own w w') (hsize : ∀ j ∈ own, j < w.calls.size) :
    ∀ j ∈ own, j < w'.calls.size := by
  intro j hj
  have hcall := h.calls j hj
  rw [Array.getElem?_eq_getElem (hsize j hj)] at hcall
  exact (Array.getElem?_eq_some_iff.mp hcall).1

theorem confined_report (own : List Nat) (w : World) (e : Event) : Confined own w (w.report e) :=
  ⟨fun _ _ => rfl, rfl⟩

theorem confined_putCall (h : i ∉ own) (w : World) (c : Call Value) :
    Confined own w ((callPart i).put w c) :=
  ⟨fun _ hj => calls_putCall_ne (ne_of_mem_of_not_mem hj h).symm w c, rfl⟩

namespace Has

theorem beside (h : Has own i c P w) (hb : Beside own w w') : Has own i c P w' :=
  ⟨h.apart, fun j hj => hb.size ▸ h.size j hj, (hb.calls i h.apart).trans h.call,
    hb.objects ▸ h.objects⟩

theorem putCall (h : Has own i c P w) (c' : Call Value) :
    Has own i c' P ((callPart i).put w c') :=
  ⟨h.apart, fun j hj => Nat.lt_of_lt_of_eq (h.size j hj) Array.size_setIfInBounds.symm,
    calls_putCall_self h.call, h.objects⟩

theorem report (h : Has own i c P w) (e : Event) : Has own i c P (w.report e) :=
  ⟨h.apart, h.size, h.call, h.objects⟩

theorem confined (h : Has own i c P w) (hc : Confined (i :: own) w w') (hP : P w'.objects) :
    Has own i c P w' := by
  have hown : Confined own w w' := hc.mono fun _ => List.mem_cons_of_mem i
  exact ⟨h.apart, hown.size h.size, (hc.calls i (.head _)).trans h.call, hP⟩

end Has
end World

/-! ### Programs beside others -/

/-- The program keeps clear of the calls `own` and comes to where `R` holds, whatever others do
meanwhile with these calls. -/
abbrev Reaches {α : Type} (t : ThreadId) (own : List Nat) (R : Action α → World → Prop) :
    Action α → World → Prop :=
  Program.Leads t (World.Beside own) (World.Confined own) R

/-- The callable with these arguments, run on any thread where the objects are `o`, returns or
panics; the result and the objects that it leaves go together by `Q`. -/
def Answers (callable : Callable) (args : List Value) (o : World)
    (Q : Except Payload Value → World → Prop) : Prop :=
  ∀ (t : ThreadId) (own : List Nat) (w : World), w.objects = o → (∀ i ∈ own, i < w.calls.size) →
    (callable.target.run args).Ends t (World.Beside own) (World.Confined own)
      (fun r w => Q r w.objects) w

variable {α ρ : Type} {t : ThreadId} {own : List Nat} {i : Nat} {c : Call Value}
  {P : World → Prop} {w : World} {R : Action α → World → Prop}

/-- One step of a routine on call `i`, which the others leave alone. -/
theorem reaches_onCall {r : Routine (Call Value) ρ} {pc : r.Pc} {k : ρ → Action α}
    (hw : w.Has own i c P)
    (h : ∀ m : Moment, m.self = t →
      (∃ c' pc', r.step m c pc = .going c' pc' ∧ ∀ w, World.Has own i c' P w →
        Reaches t own R (.perform (r.on (World.callPart i)) pc' k) w) ∨
      ∃ c' y, r.step m c pc = .finished c' y ∧ ∀ w, World.Has own i c' P w →
        Reaches t own R (k y) w) :
    Reaches t own R (.perform (r.on (World.callPart i)) pc k) w := by
  refine .on fun m w' hb hm => ?_
  have hw' := hw.beside hb
  rcases h m hm with ⟨c', pc', hstep, hlead⟩ | ⟨c', y, hstep, hlead⟩
  · exact ⟨c, c', hw'.call, World.confined_putCall hw.apart w' c',
      .inl ⟨pc', hstep, hlead _ (hw'.putCall c')⟩⟩
  · exact ⟨c, c', hw'.call, World.confined_putCall hw.apart w' c',
      .inr ⟨y, hstep, hlead _ (hw'.putCall c')⟩⟩

theorem reaches_report {e : Event} {k : Unit → Action α} (hw : w.Has own i c P)
    (h : ∀ w, World.Has own i c P w → Reaches t own R (k ()) w) :
    Reaches t own R ((report e).bind k) w := by
  refine Program.Leads.atomic fun m w' hb _ => ⟨World.confined_report own w' e, ?_⟩
  exact h _ ((hw.beside hb).report e)

/-- The callable of call `i` is run, and its panic caught. -/
theorem reaches_callable {callable : Callable} {args : List Value} {o : World}
    {Q : Except Payload Value → World → Prop} {f : Except Payload Value → Action α}
    (hcallable : Answers callable args o Q) (hw : w.Has own i c (· = o))
    (hf : ∀ r w, World.Has own i c (Q r) w → Reaches t own R (f r) w) :
    Reaches t own R ((callable.target.run args).attempt.bind f) w := by
  have hlt : i < w.calls.size := (Array.getElem?_eq_some_iff.mp hw.call).1
  have hends := hcallable t (i :: own) w hw.objects fun j hj => by
    rcases List.mem_cons.mp hj with rfl | hj
    · exact hlt
    · exact hw.size j hj
  have hrely : (callable.target.run args).Ends t (World.Beside own) (World.Confined (i :: own))
      (fun r w => Q r w.objects) w :=
    hends.weaken (fun _ _ hb => hb.mono fun _ => List.mem_cons_of_mem i) fun _ _ => id
  have hkept := hrely.keep (I := World.Has own i c fun _ => True) (fun _ _ hb hI => hI.beside hb)
    (fun _ _ hc hI => hI.confined hc trivial) ⟨hw.apart, hw.size, hw.call, trivial⟩
  have hguar : (callable.target.run args).Ends t (World.Beside own) (World.Confined own)
      (fun r w => World.Has own i c (Q r) w) w := by
    refine (hkept.mono fun p w hp => ?_).weaken (fun _ _ => id) fun _ _ hc =>
      hc.mono fun _ => List.mem_cons_of_mem i
    obtain ⟨⟨r, hend, hQ⟩, hI⟩ := hp
    exact ⟨r, hend, hI.apart, hI.size, hI.call, hQ⟩
  exact hguar.attempt_bind (World.Beside.refl own) hf

end Script
end CrossCall
