import CrossCall.Proofs.Call.Apart
import CrossCall.Proofs.Call.Outcome

/-! The gate before the callable. An attempt passes it once, with the lock of the phase taken, and
what the phase is then decides for ever whether the attempt is one that starts the callable. -/

namespace CrossCall.Call

variable {A V : Type}

/-- The attempt has not passed the gate. -/
def TargetStand.isEntering : TargetStand V → Bool
  | .entering _ => true
  | _ => false

section

variable {m : Moment} {c c' : Call V} {stand stand' : TargetStand V}

theorem Stage.of_nil {phase : Phase V} {permits : Nat} {caller : CallerStand V}
    (h : Stage phase permits caller []) : phase = .dispatched ∨ phase = .abandoned := by
  cases h with
  | dispatched | refused => exact .inl rfl
  | abandoned => exact .inr rfl

theorem TargetStep.gate (h : TargetStep m c stand c' stand') (hs : stand.isEntering)
    (hs' : ¬ stand'.isEntering) :
    stand = .entering .holding ∧ (stand'.hasStarted ↔ c.phase = .dispatched) := by
  cases h with
  | lockGate => exact absurd rfl hs'
  | pass hd => exact ⟨rfl, fun _ => hd, fun _ => rfl⟩
  | skip hd => exact ⟨rfl, nofun, fun hd' => absurd hd' hd⟩
  | _ => cases hs

theorem TargetStep.beyond (h : TargetStep m c stand c' stand') (hs : ¬ stand.isEntering) :
    ¬ stand'.isEntering ∧ stand'.hasStarted = stand.hasStarted := by
  cases h with
  | lockGate | pass | skip => exact absurd rfl hs
  | _ => exact ⟨nofun, rfl⟩

end

namespace Scene

variable {s t : Scene A V} {m : Move A V} {k : Nat} {a b : Attempt A V}

/-- What a move makes of attempt `k`. -/
inductive Onward (s : Scene A V) (a : Attempt A V) : TargetStand V → Prop where
  | rest : Onward s a a.stand
  | step (m : Moment) (p : Party A V) (call : Call V) (stand : TargetStand V) :
      s.parties[a.envelope.call]? = some p → TargetStep m p.call a.stand call stand →
      Onward s a stand
  | finish (r : Except Payload V) : a.stand = .running → Onward s a (.concluding r .locking)

theorem onward_of_move (h : s.move m = some t) (ha : s.attempts[k]? = some a) :
    ∃ b, t.attempts[k]? = some b ∧ b.thread = a.thread ∧ b.envelope = a.envelope ∧
      s.Onward a b.stand := by
  have hput {u : Scene A V} {j : Nat} {c : Attempt A V} {stand : TargetStand V}
      (hu : u.attempts = s.attempts) (hc : s.attempts[j]? = some c) (hs : s.Onward c stand) :
      ∃ b, (u.putAttempt j stand).attempts[k]? = some b ∧ b.thread = a.thread ∧
        b.envelope = a.envelope ∧ s.Onward a b.stand := by
    by_cases hjk : j = k
    · subst hjk
      obtain rfl := Option.some.inj (ha.symm.trans hc)
      exact ⟨{ a with stand }, attempts_putAttempt (hu ▸ ha) stand, rfl, rfl, hs⟩
    · exact ⟨a, (attempts_putAttempt_ne hjk stand).trans (hu ▸ ha), rfl, rfl, .rest⟩
  cases change_of_move h with
  | take =>
    refine ⟨a, ?_, rfl, rfl, .rest⟩
    rw [List.getElem?_append_left (List.getElem?_eq_some_iff.mp ha).1, ha]
  | stepAttempt j pick c p call stand hc hp hs => exact hput rfl hc (.step _ p call stand hp hs)
  | finish j r c hc hrun => exact hput rfl hc (.finish r hrun)
  | _ => exact ⟨a, ha, rfl, rfl, .rest⟩

theorem Onward.hasStarted {stand : TargetStand V} (h : s.Onward a stand) (hs : a.stand.hasStarted) :
    stand.hasStarted := by
  cases h with
  | rest => exact hs
  | step m p call stand hp hstep => exact hstep.hasStarted hs
  | finish r hrun => rfl

/-- How an attempt passes the gate. -/
theorem Onward.gate {stand : TargetStand V} (h : s.Onward a stand) (hs : a.stand.isEntering)
    (hs' : ¬ stand.isEntering) : a.stand = .entering .holding ∧
      ∃ p, s.parties[a.envelope.call]? = some p ∧
        (stand.hasStarted ↔ p.call.phase = .dispatched) := by
  cases h with
  | rest => exact absurd hs hs'
  | step m p call stand hp hstep =>
    obtain ⟨hhold, hiff⟩ := hstep.gate hs hs'
    exact ⟨hhold, p, hp, hiff⟩
  | finish r hrun => rw [hrun] at hs; cases hs

theorem Onward.beyond {stand : TargetStand V} (h : s.Onward a stand) (hs : ¬ a.stand.isEntering) :
    ¬ stand.isEntering ∧ stand.hasStarted = a.stand.hasStarted := by
  cases h with
  | rest => exact ⟨hs, rfl⟩
  | step m p call stand hp hstep => exact hstep.beyond hs
  | finish r hrun => rw [hrun]; exact ⟨nofun, rfl⟩

/-- An attempt stays where it is in the list, on its thread and with its envelope. -/
theorem Reachable.attempt (ht : CrossCall.Reachable move (· = s) t)
    (ha : s.attempts[k]? = some a) :
    ∃ b, t.attempts[k]? = some b ∧ b.thread = a.thread ∧ b.envelope = a.envelope := by
  refine CrossCall.Reachable.keeps (P := fun t => ∃ b, t.attempts[k]? = some b ∧
    b.thread = a.thread ∧ b.envelope = a.envelope) ?_ ht fun _ hst => hst ▸ ⟨a, ha, rfl, rfl⟩
  rintro u m v ⟨b, hb, hthread, henvelope⟩ hm
  obtain ⟨c, hc, hthread', henvelope', -⟩ := onward_of_move hm hb
  exact ⟨c, hc, hthread'.trans hthread, henvelope'.trans henvelope⟩

/-- Beyond the gate it is settled whether the attempt is one that starts the callable. -/
theorem Reachable.beyond (ht : CrossCall.Reachable move (· = s) t) (ha : s.attempts[k]? = some a)
    (hs : ¬ a.stand.isEntering) :
    ∃ b, t.attempts[k]? = some b ∧ ¬ b.stand.isEntering ∧
      b.stand.hasStarted = a.stand.hasStarted := by
  refine CrossCall.Reachable.keeps (P := fun t => ∃ b, t.attempts[k]? = some b ∧
    ¬ b.stand.isEntering ∧ b.stand.hasStarted = a.stand.hasStarted) ?_ ht
    fun _ hst => hst ▸ ⟨a, ha, hs, rfl⟩
  rintro u m v ⟨b, hb, hbs, hstarted⟩ hm
  obtain ⟨c, hc, -, -, honward⟩ := onward_of_move hm hb
  obtain ⟨hcs, hstarted'⟩ := honward.beyond hbs
  exact ⟨c, hc, hcs, hstarted'.trans hstarted⟩

theorem Reachable.stays_abandoned {i : Nat} (hs : s.Reachable) (h : s.HasAbandoned i)
    (ht : CrossCall.Reachable move (· = s) t) : t.HasAbandoned i := by
  obtain ⟨p, hp, hphase⟩ := h
  obtain ⟨q, hq, -, hphase', -⟩ := hs.forgets hp hphase ht
  exact ⟨q, hq, hphase'⟩

end Scene
end CrossCall.Call
