import CrossCall.Proofs.Call.Sound

/-! When the callable of a call is started: once at most, and only while the caller waits. Nothing
that an attempt does after the caller has returned changes the phase or the signal of the call. -/

namespace CrossCall.Call

variable {A V : Type}

/-- A run that the caller has left behind is over, or goes on for a call that was given up. -/
theorem Stage.over_or_abandoned {phase : Phase V} {permits : Nat}
    {outcome : Except InvokeError V} {runs : List (TargetStand V)} {stand : TargetStand V}
    (h : Stage phase permits (.returned outcome) runs) (hm : stand ∈ runs) :
    stand.isOver ∨ stand.isRunning ∧ phase = .abandoned := by
  cases h with
  | refused | abandoned => cases hm
  | refusedRun | settled | abandonedOver => exact .inl (List.mem_singleton.mp hm ▸ rfl)
  | abandonedRun hs => exact .inr ⟨List.mem_singleton.mp hm ▸ hs, rfl⟩
  | dispatched hc | running hc | storing _ hc | stored _ hc | raised _ hc | served _ hc => cases hc

theorem Stage.returned_of_abandoned {phase : Phase V} {permits : Nat} {caller : CallerStand V}
    {runs : List (TargetStand V)} (h : Stage phase permits caller runs)
    (hp : phase = .abandoned) : caller = .returned (.error .timedOut) := by
  subst hp
  cases h with
  | abandoned | abandonedRun | abandonedOver => rfl
  | stored hk | raised hk | refusedRun _ hk | served hk => cases hk

theorem Stage.abandoned_of_returned {phase : Phase V} {permits : Nat} {caller : CallerStand V}
    {runs : List (TargetStand V)} (h : Stage phase permits caller runs)
    (hc : caller = .returned (.error .timedOut)) : phase = .abandoned := by
  subst hc
  cases h with
  | abandoned | abandonedRun | abandonedOver => rfl
  | settled hr => cases hr
  | dispatched hc | running hc | storing _ hc | stored _ hc | raised _ hc | served _ hc => cases hc

theorem Stage.refused_of_dispatched {phase : Phase V} {permits : Nat}
    {outcome : Except InvokeError V} {runs : List (TargetStand V)}
    (h : Stage phase permits (.returned outcome) runs) (hp : phase = .dispatched) :
    ∃ e, outcome = .error (.dispatch e) := by
  subst hp
  cases h with
  | refused e => exact ⟨e, rfl⟩
  | refusedRun e => exact ⟨e, rfl⟩
  | dispatched hc => cases hc
  | stored hk | raised hk | served hk => cases hk

namespace Course

variable {c d : Course V} {bound : WaitBound} {outcome : Except InvokeError V}

def starts (c : Course V) : Nat := c.stands.countP TargetStand.hasStarted

theorem Sound.starts_le (h : c.Sound) : c.starts ≤ 1 := by
  rw [starts, List.countP_eq_length_filter]
  exact h.stage.length_le

/-- What a caller has left behind: the outcome it got, the phase and the signal as they are, and no
run but the one there is. -/
theorem Step.after_return (hs : c.Step bound d) (h : c.Sound) (hc : c.caller = .returned outcome) :
    d.caller = .returned outcome ∧ d.call.phase = c.call.phase ∧ d.call.signal = c.call.signal ∧
      d.starts = c.starts := by
  have hstage := h.stage
  rw [hc] at hstage
  cases hs with
  | take keep hq =>
    refine ⟨hc, rfl, rfl, ?_⟩
    rw [starts, List.countP_append]
    rfl
  | drop hq => exact ⟨hc, rfl, rfl, rfl⟩
  | accept hh => rw [hc] at hh; cases hh
  | refuse error hh => rw [hc] at hh; cases hh
  | caller m call caller hs => rw [hc] at hs; cases hs
  | finish before after r hst =>
    refine ⟨hc, rfl, rfl, ?_⟩
    rw [starts, starts, hst, countP_sides, countP_sides]
    rfl
  | target m before after stand stand' call hst hs =>
    have hmem : stand ∈ c.stands := by simp [hst]
    have hleft (hh : stand.hasStarted) :
        stand.isOver ∨ stand.isRunning ∧ c.call.phase = .abandoned :=
      hstage.over_or_abandoned (List.mem_filter.mpr ⟨hmem, hh⟩)
    have hstarts (he : stand'.hasStarted = stand.hasStarted) :
        (before ++ stand' :: after).countP TargetStand.hasStarted = c.starts := by
      rw [starts, hst, countP_sides, countP_sides, he]
    cases hs with
    | lockGate hh => exact ⟨hc, rfl, rfl, hstarts rfl⟩
    | skip hd => exact ⟨hc, rfl, rfl, hstarts rfl⟩
    | lock r hh => exact ⟨hc, rfl, rfl, hstarts rfl⟩
    | discard r ha => exact ⟨hc, rfl, rfl, hstarts rfl⟩
    | pass hd =>
      -- Still dispatched, the call was refused, and then no attempt is left to stand at the gate.
      obtain ⟨e, rfl⟩ := hstage.refused_of_dispatched hd
      have hover := (h.refused e hc).2 _ hmem
      cases hover
    | keep r ha =>
      -- A run is left behind only by a caller who gave up, and then its end is not kept.
      rcases hleft rfl with ho | ⟨-, hp⟩
      · cases ho
      · exact absurd hp ha
    | store | raise | raised | release => rcases hleft rfl with ho | ⟨ho, -⟩ <;> cases ho

theorem Step.starts_of_abandon (hs : c.Step bound d) (hc : c.call.phase ≠ .abandoned)
    (hd : d.call.phase = .abandoned) : d.starts = c.starts := by
  cases hs with
  | target m before after stand stand' call hst hs =>
    cases hs with
    | pass => cases hd
    | store r => cases r <;> cases hd
    | _ => exact absurd hd hc
  | caller m call caller hs => rfl
  | _ => exact absurd hd hc

end Course

namespace Scene

variable {s s₀ t u v : Scene A V} {i : Nat} {p : Party A V} {ms : List (Move A V)}

/-- The attempts at call `i` in which the callable was started. -/
def runs (s : Scene A V) (i : Nat) : List (Attempt A V) :=
  s.attempts.filter fun a => a.stand.hasStarted && a.envelope.call = i

def HasAbandoned (s : Scene A V) (i : Nat) : Prop :=
  ∃ p, s.parties[i]? = some p ∧ p.call.phase = .abandoned

theorem starts_course (s : Scene A V) (i : Nat) (p : Party A V) :
    (s.course i p).starts = (s.runs i).length := by
  rw [Course.starts, course, stands, runs, List.countP_map, List.countP_filter,
    List.countP_eq_length_filter]
  rfl

theorem Sound.length_runs_le (h : s.Sound) (i : Nat) : (s.runs i).length ≤ 1 := by
  cases hp : s.parties[i]? with
  | some p => exact starts_course s i p ▸ (h.courses i p hp).starts_le
  | none =>
    have hnil : s.runs i = [] := by
      rw [runs, List.filter_eq_nil_iff]
      intro a ha hi
      obtain ⟨-, rfl⟩ : a.stand.hasStarted = true ∧ a.envelope.call = i := by simpa using hi
      have hlt := h.call_lt (List.mem_append_right _ (List.mem_map_of_mem ha))
      exact absurd (List.getElem?_eq_none_iff.mp hp) (Nat.not_le_of_gt hlt)
    simp [hnil]

/-- Once the caller has returned with some outcome, that is the outcome for ever, the phase and the
signal of the call never change, and the callable is not started. -/
def Left (s : Scene A V) (i : Nat) (p : Party A V) (outcome : Except InvokeError V)
    (t : Scene A V) : Prop :=
  ∃ q, t.parties[i]? = some q ∧ q.args = p.args ∧ q.caller = .returned outcome ∧
    q.call.phase = p.call.phase ∧ q.call.signal = p.call.signal ∧
    (t.runs i).length = (s.runs i).length

theorem Reachable.left (hs : s.Reachable) (hp : s.parties[i]? = some p)
    {outcome : Except InvokeError V} (hc : p.caller = .returned outcome)
    (ht : CrossCall.Reachable move (· = s) t) : s.Left i p outcome t := by
  refine CrossCall.Reachable.keeps_from hs ?_ ⟨p, hp, rfl, hc, rfl, rfl, rfl⟩ ht
  rintro u m v hu ⟨q, hq, hargs, hqc, hphase, hsignal, hruns⟩ hv
  obtain ⟨q', hq', -, hargs', -, hstep⟩ := move_follows m hq hv
  have hkept : (v.course i q').caller = .returned outcome ∧
      (v.course i q').call.phase = q.call.phase ∧
      (v.course i q').call.signal = q.call.signal ∧
      (v.course i q').starts = (u.course i q).starts := by
    rcases hstep with hsame | hstep
    · rw [hsame]
      exact ⟨hqc, rfl, rfl, rfl⟩
    · exact hstep.after_return ((Reachable.sound hu).courses i q hq) hqc
  rw [starts_course, starts_course] at hkept
  obtain ⟨hc', hp', hs', hr'⟩ := hkept
  refine ⟨q', hq', hargs'.trans hargs, hc', hp'.trans hphase, hs'.trans hsignal, ?_⟩
  exact hr'.trans hruns

theorem Sound.runs_of_abandon (h : s.Sound) {m : Move A V} (hm : s.move m = some t)
    (hs : ¬ s.HasAbandoned i) (ht : t.HasAbandoned i) :
    (t.runs i).length = (s.runs i).length := by
  obtain ⟨q, hq, hphase⟩ := ht
  rcases h.move_party hm hq with ⟨p, hp, -, hstep⟩ | hnew
  · have hphase' : p.call.phase ≠ .abandoned := fun hpa => hs ⟨p, hp, hpa⟩
    rw [← starts_course t i q, ← starts_course s i p]
    rcases hstep with hsame | hstep
    · rw [hsame]
    · exact hstep.starts_of_abandon hphase' hphase
  · have hcall : q.call = {} := congrArg Course.call hnew
    rw [hcall] at hphase
    cases hphase

theorem Reachable.runs_of_abandoned (hs : s.Reachable) (ha : s.HasAbandoned i)
    (ht : CrossCall.Reachable move (· = s) t) : (t.runs i).length = (s.runs i).length := by
  obtain ⟨p, hp, hphase⟩ := ha
  have hc := (hs.sound.courses i p hp).stage.returned_of_abandoned hphase
  obtain ⟨q, -, -, -, -, -, hruns⟩ := hs.left hp hc ht
  exact hruns

/-- The callable of a call is started once at most, and never after its caller has returned, with
whatever outcome, or has given the call up. A call that timed out was given up by one move, and what
run of it there ever is began before that move. -/
theorem started_at_most_once_and_only_while_waited_for (h₀ : s₀.isStart)
    (hs : afterMoves move s₀ ms = some s) (i : Nat) :
    (s.runs i).length ≤ 1 ∧
      (∀ p outcome, s.parties[i]? = some p → p.caller = .returned outcome →
        ∀ ns t, afterMoves move s ns = some t → (t.runs i).length = (s.runs i).length) ∧
      (s.HasAbandoned i →
        ∀ ns t, afterMoves move s ns = some t → (t.runs i).length = (s.runs i).length) ∧
      ∀ p, s.parties[i]? = some p → p.caller = .returned (.error .timedOut) →
        ∃ before m after u v, ms = before ++ m :: after ∧
          afterMoves move s₀ before = some u ∧ u.move m = some v ∧
          afterMoves move v after = some s ∧ ¬ u.HasAbandoned i ∧ v.HasAbandoned i ∧
          (s.runs i).length = (u.runs i).length := by
  have hreach : s.Reachable := .trans (.start h₀) (.of_afterMoves hs)
  have hreturned : ∀ p outcome, s.parties[i]? = some p → p.caller = .returned outcome →
      ∀ ns t, afterMoves move s ns = some t → (t.runs i).length = (s.runs i).length := by
    intro p outcome hp hc ns t ht
    obtain ⟨q, -, -, -, -, -, hruns⟩ := hreach.left hp hc (.of_afterMoves ht)
    exact hruns
  refine ⟨hreach.sound.length_runs_le i, hreturned,
    fun ha ns t ht => hreach.runs_of_abandoned ha (.of_afterMoves ht), fun p hp hc => ?_⟩
  have hphase := (hreach.sound.courses i p hp).stage.abandoned_of_returned hc
  have hstart : ¬ s₀.HasAbandoned i := by
    rintro ⟨p, hp, -⟩
    simp [h₀.1] at hp
  obtain ⟨before, m, after, u, v, hms, hu, hm, hv, hnot, hhas⟩ :=
    exists_turn (P := fun s => s.HasAbandoned i) hs hstart ⟨p, hp, hphase⟩
  have hur : u.Reachable := .trans (.start h₀) (.of_afterMoves hu)
  have hvr : v.Reachable := .move m hur hm
  refine ⟨before, m, after, u, v, hms, hu, hm, hv, hnot, hhas, ?_⟩
  rw [hvr.runs_of_abandoned hhas (.of_afterMoves hv), hur.sound.runs_of_abandon hm hnot hhas]

/-- A caller with a bound of nothing, who gives its call up while the callable runs. -/
def givenUpWhileRunning : List (Move Nat Nat) :=
  [.launch 0 7 (.within .zero), .accept 0, .take 1 0 false, .stepAttempt 0 0, .stepAttempt 0 0] ++
    List.replicate 8 (.stepCaller 0 false)

theorem started_at_most_once_given_up_while_running :
    ∃ s : Scene Nat Nat, afterMoves move { strict := true } givenUpWhileRunning = some s ∧
      s.HasAbandoned 0 ∧ (s.runs 0).length = 1 ∧
      ∀ ns t, afterMoves move s ns = some t → (t.runs 0).length = 1 := by
  have hrun := started_at_most_once_and_only_while_waited_for ⟨rfl, rfl, rfl⟩
    (show afterMoves move { strict := true } givenUpWhileRunning = some _ from rfl) 0
  exact ⟨_, rfl, ⟨_, rfl, rfl⟩, rfl, hrun.2.2.1 ⟨_, rfl, rfl⟩⟩

end Scene
end CrossCall.Call
