import CrossCall.Delegate.Uses
import CrossCall.Proofs.Call.Gate
import CrossCall.Proofs.Script.Steps

/-! Calls under way do not interfere. A step of one call leaves all that belongs to others; a run is
that of one call for ever, with the arguments of that call; and what comes of a call that was given
up reaches no caller. Delegates do not change by calls: only the record of a handle does. -/

namespace CrossCall

/-! ### Delegates -/

namespace Delegate

variable {T τ : Type} {handles : List (Delegate T τ)} {d : Delegate T τ} {k : Nat}

/-- All of a delegate but its record. -/
def setup (d : Delegate T τ) : Callable T τ × Option Queue × WaitBound :=
  (d.callable, d.queue, d.bound)

theorem setup_afterInvoke (d : Delegate T τ) (ending : Ending) :
    (d.afterInvoke ending).1.setup = d.setup := by
  cases ending <;> rfl

/-- A use leaves every handle set up as it was; a handle that is new is set up like an old one. -/
theorem setups_afterUse (handles : List (Delegate T τ)) (use : Use) :
    ∃ more, (afterUse handles use).map setup = handles.map setup ++ more ∧
      ∀ x ∈ more, x ∈ handles.map setup := by
  cases use with
  | invoke k ending =>
    refine ⟨[], ?_, nofun⟩
    rw [List.append_nil]
    refine List.ext_getElem? fun j => ?_
    simp only [afterUse, List.getElem?_map, List.getElem?_modify]
    cases handles[j]? with
    | none => rfl
    | some d =>
      split
      · exact congrArg some (setup_afterInvoke d ending)
      · rfl
  | clone k =>
    refine ⟨(handles[k]?.map setup).toList, ?_, fun x hx => ?_⟩
    · cases hk : handles[k]? <;> simp [afterUse, hk, clone, setup]
    · obtain ⟨d, hd, rfl⟩ := Option.map_eq_some_iff.mp (Option.mem_toList.mp hx)
      exact List.mem_map_of_mem (List.mem_of_getElem? hd)
  | tryInvoke | asyncInvoke | compare => exact ⟨[], (List.append_nil _).symm, nofun⟩

theorem setups_afterUses (handles : List (Delegate T τ)) (uses : List Use) :
    ∃ more, (afterUses handles uses).map setup = handles.map setup ++ more ∧
      ∀ x ∈ more, x ∈ handles.map setup := by
  induction uses generalizing handles with
  | nil => exact ⟨[], (List.append_nil _).symm, nofun⟩
  | cons use rest ih =>
    obtain ⟨more, hmore, hold⟩ := setups_afterUse handles use
    obtain ⟨more', hmore', hold'⟩ := ih (afterUse handles use)
    refine ⟨more ++ more', ?_, fun x hx => ?_⟩
    · rw [← List.append_assoc, ← hmore, ← hmore']
      rfl
    · rcases List.mem_append.mp hx with hx | hx
      · exact hold x hx
      · have hx' := hold' x hx
        rw [hmore] at hx'
        rcases List.mem_append.mp hx' with hx' | hx'
        · exact hx'
        · exact hold x hx'

end Delegate

/-! ### Calls -/

namespace Call.Scene

variable {A V : Type} {s s₀ t : Scene A V} {m : Move A V} {i j k : Nat} {p : Party A V}
  {ms : List (Move A V)}

/-- In attempt `k` the callable was started for call `i`. -/
def IsRunOf (s : Scene A V) (k i : Nat) : Prop :=
  ∃ a, s.attempts[k]? = some a ∧ a.stand.hasStarted ∧ a.envelope.call = i

/-- No step for call `i` changes where a caller stands, or a phase or a signal. -/
def ReachesNobody (s : Scene A V) (i : Nat) : Prop :=
  ∀ m t, s.move m = some t → s.callOf m = some i → ∀ (j : Nat) p, s.parties[j]? = some p →
    ∃ q, t.parties[j]? = some q ∧ q.caller = p.caller ∧ q.call.phase = p.call.phase ∧
      q.call.signal = p.call.signal

/-- A run is that of one call, also later. -/
theorem IsRunOf.unique (h : s.IsRunOf k i) (ht : CrossCall.Reachable move (· = s) t)
    (hj : t.IsRunOf k j) : j = i := by
  obtain ⟨a, ha, -, hi⟩ := h
  obtain ⟨b, hb, -, henvelope⟩ := Reachable.attempt ht ha
  obtain ⟨b', hb', -, hj⟩ := hj
  obtain rfl := Option.some.inj (hb.symm.trans hb')
  rw [← hj, henvelope, hi]

theorem Sound.args_of_run (h : s.Sound) (hk : s.IsRunOf k i) :
    ∃ a p, s.attempts[k]? = some a ∧ s.parties[i]? = some p ∧ a.envelope = ⟨i, p.args⟩ := by
  obtain ⟨a, ha, -, rfl⟩ := hk
  have he : a.envelope ∈ s.envelopes :=
    List.mem_append_right _ (List.mem_map_of_mem (List.mem_of_getElem? ha))
  obtain ⟨p, hp, hargs⟩ := Option.map_eq_some_iff.mp (h.faithful _ he)
  exact ⟨a, p, ha, hp, by rw [hargs]⟩

theorem Reachable.reachesNobody (hs : s.Reachable) (h : s.HasAbandoned i) : s.ReachesNobody i := by
  intro m t hm hmi j p hp
  by_cases hij : j = i
  · subst hij
    obtain ⟨p', hp', hphase⟩ := h
    obtain rfl := Option.some.inj (hp.symm.trans hp')
    have hc := (hs.sound.courses j p hp).stage.returned_of_abandoned hphase
    obtain ⟨q, hq, -, hqc, hqp, hqs, -⟩ := hs.left hp hc (.move m (.refl s) hm)
    exact ⟨q, hq, hqc.trans hc.symm, hqp, hqs⟩
  · have hspares := spares_of_move hm fun he => hij (Option.some.inj (he.symm.trans hmi))
    exact ⟨p, hspares.party.trans hp, rfl, rfl, rfl⟩

/-- Calls do not interfere, whoever makes them and through whatever delegates. A step of one call
leaves of every other the caller, the phase, the signal and the arguments, and all its items and
attempts. A run is that of one call for ever, and uses the arguments of that call; a call has one
run at most, and its value is that of this run. What goes on for a call that was given up reaches no
caller. The steps of threads that make calls, and of those that serve them, leave the delegates as
they are and change one call at most; and a handle of a delegate keeps, through all its uses, what
it is set up with. -/
theorem calls_do_not_interfere {T τ : Type} (h₀ : s₀.isStart)
    (hs : afterMoves move s₀ ms = some s) :
    (∀ m t, s.move m = some t → (∀ i, s.callOf m ≠ some i → s.Spares i t) ∧
      ∀ (i : Nat) p, s.parties[i]? = some p → ∃ q, t.parties[i]? = some q ∧ q.thread = p.thread ∧
        q.args = p.args ∧ q.bound = p.bound) ∧
    (∀ k i, s.IsRunOf k i →
      (∃ a p, s.attempts[k]? = some a ∧ s.parties[i]? = some p ∧ a.envelope = ⟨i, p.args⟩) ∧
      ∀ ns t j, afterMoves move s ns = some t → t.IsRunOf k j → j = i) ∧
    (∀ i, (s.runs i).length ≤ 1) ∧
    (∀ (i : Nat) p v, s.parties[i]? = some p → p.caller = .returned (.ok v) →
      s.RanOnce i p.args (.ok v)) ∧
    (∀ i, s.HasAbandoned i → ∀ ns t, afterMoves move s ns = some t →
      t.HasAbandoned i ∧ t.ReachesNobody i) ∧
    (∀ start machine after m, (∀ thread ∈ start.threads, Script.TakesPart thread) →
      CrossCall.Reachable Machine.move (· = start) machine → machine.move m = some after →
      machine.shared.Spares after.shared) ∧
    ∀ (handles : List (Delegate T τ)) (uses : List Delegate.Use),
      ∃ more, (Delegate.afterUses handles uses).map Delegate.setup =
          handles.map Delegate.setup ++ more ∧ ∀ x ∈ more, x ∈ handles.map Delegate.setup := by
  have hreach : s.Reachable := .trans (.start h₀) (.of_afterMoves hs)
  refine ⟨fun m t hm => ⟨fun i hi => spares_of_move hm hi, fun i p hp => ?_⟩,
    fun k i hk => ⟨hreach.sound.args_of_run hk, fun ns t j ht => hk.unique (.of_afterMoves ht)⟩,
    hreach.sound.length_runs_le, fun i p v hp hc => hreach.sound.backs_of_returned hp hc,
    fun i ha ns t ht => ?_, fun _ _ _ _ h hr hm => Script.spares_of_machine h hr hm,
    Delegate.setups_afterUses⟩
  · obtain ⟨q, hq, hthread, hargs, hbound, -⟩ := move_follows m hp hm
    exact ⟨q, hq, hthread, hargs, hbound⟩
  · have hstays := hreach.stays_abandoned ha (.of_afterMoves ht)
    exact ⟨hstays, Reachable.reachesNobody (.trans hreach (.of_afterMoves ht)) hstays⟩

/-- Two callers of a callable that squares. The first gives up while its call runs; the second has
its value before that run ends. -/
def squaredBesideALateRun : List (Move Nat Nat) :=
  List.flatten [givenUpWhileRunning, [.launch 0 8 .infinite, .accept 1, .take 2 0 false],
    List.replicate 2 (.stepAttempt 1 0), [.finish 1 (.ok 64), .finish 0 (.ok 49)],
    List.replicate 7 (.stepAttempt 1 0), List.replicate 5 (.stepCaller 1 false)]

/-- One caller of a callable that doubles, and the worker that is to run it. -/
def doubledOnAWorker : Machine Script.World where
  shared := { workers := [{ name := "w", thread := 1 }] }
  threads := #[⟨some ((Script.tryInvoke ⟨⟨.double, 1, .closure 1⟩, some ⟨0, "w", .worker 0⟩,
      .infinite, none⟩ [.int 7]).bind fun _ => .pure false), .pure false⟩,
    ⟨some (Script.drainTurn 0), Script.drainTurn 0⟩]

theorem calls_do_not_interfere_beside_a_late_run :
    (∃ (s : Scene Nat Nat) (p : Party Nat Nat),
      afterMoves move { strict := true } squaredBesideALateRun = some s ∧
      s.parties[1]? = some p ∧ p.caller = .returned (.ok 64) ∧ s.RanOnce 1 8 (.ok 64) ∧
      s.IsRunOf 0 0 ∧ s.ReachesNobody 0) ∧
    ∃ machine after, afterMoves Machine.move doubledOnAWorker [.step 0 false 0] = some machine ∧
      machine.move (.step 0 false 0) = some after ∧ after.shared.calls = #[{}] ∧
      machine.shared.Spares after.shared := by
  have hrun := calls_do_not_interfere (T := Unit) (τ := Unit) ⟨rfl, rfl, rfl⟩
    (show afterMoves move { strict := true } squaredBesideALateRun = some _ from rfl)
  refine ⟨⟨_, _, rfl, rfl, rfl, hrun.2.2.2.1 1 _ 64 rfl rfl, ⟨_, rfl, rfl, rfl⟩,
    (hrun.2.2.2.2.1 0 ⟨_, rfl, rfl⟩ [] _ rfl).2⟩, _, _, rfl, rfl, rfl, ?_⟩
  refine hrun.2.2.2.2.2.1 doubledOnAWorker _ _ (.step 0 false 0) (fun thread ht => ?_)
    (.of_afterMoves (show afterMoves _ _ [.step 0 false 0] = some _ from rfl)) rfl
  rcases List.mem_cons.mp (Array.mem_toList_iff.mpr ht) with rfl | ht
  · exact .caller _ (.tryInvoke _ _ _ fun _ => .done false)
  · obtain rfl := List.mem_singleton.mp ht
    exact .worker 0

end Call.Scene
end CrossCall
