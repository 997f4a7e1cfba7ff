import CrossCall.Proofs.Call.Stage

/-! Every call is at one of its stages, whatever callers, queues and attempts do. Beside the stage
two things are kept: the lock of the phase has one holder at most, and a call that a queue refused
has neither items nor attempts left. -/

namespace CrossCall.Call

variable {A V : Type}

structure Course.Sound (c : Course V) : Prop where
  stage : Stage c.call.phase c.call.signal.permits c.caller (c.stands.filter TargetStand.hasStarted)
  locked : c.stands.countP TargetStand.holds + c.caller.holds.toNat = c.call.holder.isSome.toNat
  refused : ∀ e, c.caller = .returned (.error (.dispatch e)) →
    c.queued = 0 ∧ ∀ stand ∈ c.stands, stand.isOver

namespace Course

variable {c d : Course V} {m : Moment} {call : Call V} {bound : WaitBound}

theorem sound_new : ({} : Course V).Sound where
  stage := .dispatched rfl
  locked := rfl
  refused := nofun

theorem Sound.locked_le (h : c.Sound) :
    c.stands.countP TargetStand.holds + c.caller.holds.toNat ≤ 1 :=
  h.locked ▸ Bool.toNat_le _

theorem Sound.not_holds (h : c.Sound) (hc : c.caller.holds) :
    ∀ stand ∈ c.stands, ¬ stand.holds := by
  have hle := h.locked_le
  rw [hc, Bool.toNat_true] at hle
  exact List.countP_eq_zero.mp (by omega)

/-- The stage of a call, told by the one attempt that has started the callable. -/
theorem Sound.stage_of_started {stand : TargetStand V} (h : c.Sound) (hm : stand ∈ c.stands)
    (hs : stand.hasStarted) : Stage c.call.phase c.call.signal.permits c.caller [stand] := by
  have hstage := h.stage
  have hmem : stand ∈ c.stands.filter TargetStand.hasStarted := List.mem_filter.mpr ⟨hm, hs⟩
  obtain ⟨only, hruns⟩ := List.length_eq_one_iff.mp
    (Nat.le_antisymm hstage.length_le (List.length_pos_of_mem hmem))
  rw [hruns, List.mem_singleton] at hmem
  rwa [hruns, ← hmem] at hstage

theorem Sound.stage_caller {caller : CallerStand V} (h : c.Sound)
    (hs : CallerStep bound m c.call c.caller call caller) :
    Stage call.phase call.signal.permits caller (c.stands.filter TargetStand.hasStarted) := by
  have hstage := h.stage
  have hfree : c.caller.holds → ∀ stand ∈ c.stands.filter TargetStand.hasStarted, ¬ stand.holds :=
    fun hc stand hm => h.not_holds hc stand (List.mem_filter.mp hm).1
  generalize c.caller = old at hs hstage hfree
  cases hs with
  | wait since pc pc' s hw =>
    have hp : s.permits = c.call.signal.permits := by cases hw <;> rfl
    exact hp ▸ hstage.unserved rfl rfl
  | waited since pc s signaled hw =>
    cases hw with
    | take deadline cause hn => exact hstage.take rfl hn rfl
    | miss deadline hn => exact hstage.unserved rfl rfl
  | lock since signaled hh =>
    cases signaled with
    | false => exact hstage.unserved rfl rfl
    | true => exact hstage.still_served rfl rfl
  | settle since => exact hstage.settle rfl (hfree rfl)
  | abandon since => exact hstage.abandon rfl (hfree rfl)

theorem Sound.stage_target {before after : List (TargetStand V)} {stand stand' : TargetStand V}
    (h : c.Sound) (hc : c.stands = before ++ stand :: after)
    (hs : TargetStep m c.call stand call stand') :
    Stage call.phase call.signal.permits c.caller
      ((before ++ stand' :: after).filter TargetStand.hasStarted) := by
  have hstage := h.stage
  rw [hc] at hstage
  -- An attempt that has started the callable is the only one; any other leaves the run as it is,
  -- unless the gate lets it through, which it does only while there is no run.
  by_cases hst : stand.hasStarted = true
  · obtain ⟨hb, ha⟩ := filter_sides hstage.length_le hst
    rw [List.filter_append, List.filter_cons_of_pos hst, hb, ha, List.nil_append] at hstage
    rw [List.filter_append, List.filter_cons_of_pos (hs.hasStarted hst), hb, ha, List.nil_append]
    exact hstage.target hst hs
  · rw [List.filter_append, List.filter_cons_of_neg hst] at hstage
    rw [List.filter_append]
    cases hs with
    | lockGate hh => exact hstage
    | skip hd => exact hstage
    | pass hd =>
      have hnil := hstage.eq_nil_of_dispatched hd
      obtain ⟨hb, ha⟩ := List.append_eq_nil_iff.mp hnil
      rw [hnil] at hstage
      rw [List.filter_cons_of_pos rfl, hb, ha, List.nil_append]
      refine hstage.pass hd fun e he => ?_
      have hover := (h.refused e he).2 (.entering .holding) (by simp [hc])
      cases hover
    | _ => exact absurd rfl hst

theorem Step.sound (hs : c.Step bound d) (h : c.Sound) : d.Sound := by
  have hstage := h.stage
  have hlocked := h.locked
  cases hs with
  | take keep hq =>
    refine ⟨?_, ?_, fun e he => absurd (h.refused e he).1 (Nat.ne_of_gt hq)⟩
    · rw [List.filter_append, List.filter_cons_of_neg (by exact nofun), List.filter_nil,
        List.append_nil]
      exact hstage
    · rw [List.countP_append, List.countP_singleton]
      exact hlocked
  | drop hq => exact ⟨hstage, hlocked, fun e he => absurd (h.refused e he).1 (Nat.ne_of_gt hq)⟩
  | accept hc =>
    rw [hc] at hstage hlocked
    exact ⟨hstage.unserved rfl rfl, hlocked, nofun⟩
  | refuse error hc hq ho =>
    -- A queue that has run the item and then refuses leaves an outcome that nobody collects.
    rw [hc] at hstage hlocked
    refine ⟨hstage.refuse (fun stand hm => ho stand (List.mem_filter.mp hm).1) error, hlocked, ?_⟩
    exact fun _ _ => ⟨hq, ho⟩
  | caller m call caller hs =>
    refine ⟨h.stage_caller hs, ?_, fun e he => absurd he (hs.ne_refused e)⟩
    have hl := hs.locked (by omega)
    show c.stands.countP TargetStand.holds + caller.holds.toNat = call.holder.isSome.toNat
    omega
  | target m before after stand stand' call hc hs =>
    refine ⟨h.stage_target hc hs, ?_, fun e he => ?_⟩
    · rw [hc, countP_sides] at hlocked
      have hl := hs.locked (by omega)
      show (before ++ stand' :: after).countP TargetStand.holds + c.caller.holds.toNat =
        call.holder.isSome.toNat
      rw [countP_sides]
      omega
    · exact absurd ((h.refused e he).2 stand (by simp [hc])) hs.not_over
  | finish before after r hc =>
    refine ⟨?_, ?_, fun e he => ?_⟩
    · rw [hc] at hstage
      obtain ⟨hb, ha⟩ := filter_sides hstage.length_le rfl
      rw [List.filter_append, List.filter_cons_of_pos rfl, hb, ha] at hstage ⊢
      exact hstage.still_running rfl rfl
    · rw [hc, countP_sides] at hlocked
      rw [countP_sides]
      exact hlocked
    · have hover := (h.refused e he).2 .running (by simp [hc])
      cases hover

end Course

namespace Scene

variable {s t : Scene A V} {i : Nat} {p : Party A V} {m : Move A V}

/-- What has been handed in and not been dropped. -/
def envelopes (s : Scene A V) : List (Envelope A) := s.items ++ s.attempts.map Attempt.envelope

structure Sound (s : Scene A V) : Prop where
  /-- Every envelope is that of a call, with the arguments the call was made with. -/
  faithful : ∀ e ∈ s.envelopes, (s.parties[e.call]?).map Party.args = some e.args
  courses : ∀ i p, s.parties[i]? = some p → (s.course i p).Sound

theorem Sound.stage_of_attempt (h : s.Sound) {k : Nat} {a : Attempt A V}
    (hp : s.parties[i]? = some p) (ha : s.attempts[k]? = some a) (hi : a.envelope.call = i)
    (hs : a.stand.hasStarted) : Stage p.call.phase p.call.signal.permits p.caller [a.stand] :=
  (h.courses i p hp).stage_of_started (mem_stands ha hi) hs

theorem envelopes_putAttempt {k : Nat} {a : Attempt A V} (h : s.attempts[k]? = some a)
    (stand : TargetStand V) : (s.putAttempt k stand).envelopes = s.envelopes := by
  obtain ⟨before, after, hs, -, hm, -⟩ := exists_sides h
  simp only [envelopes, putAttempt, hm]
  simp [hs]

/-- Only a launch makes a party, and only for the launched call there is a new envelope. -/
theorem move_parties (h : s.move m = some t) :
    (∃ thread args bound, m = .launch thread args bound) ∨
      t.parties.length = s.parties.length ∧ ∀ e ∈ t.envelopes, e ∈ s.envelopes := by
  cases change_of_move h with
  | launch thread args bound => exact .inl ⟨thread, args, bound, rfl⟩
  | accept | refuse => exact .inr ⟨List.length_modify .., fun _ he => he⟩
  | take thread k keep e he =>
    refine .inr ⟨rfl, fun e' he' => ?_⟩
    have hsub : ∀ x ∈ (if keep then s.items else s.items.eraseIdx k), x ∈ s.items := by
      intro x hx
      split at hx
      · exact hx
      · exact List.mem_of_mem_eraseIdx hx
    simp only [envelopes, List.map_append, List.map_cons, List.map_nil, List.mem_append,
      List.mem_singleton] at he' ⊢
    rcases he' with he' | he' | rfl
    · exact .inl (hsub _ he')
    · exact .inr he'
    · exact .inl (List.mem_of_getElem? he)
  | drop k e he =>
    refine .inr ⟨rfl, fun e' he' => ?_⟩
    rcases List.mem_append.mp he' with he' | he'
    · exact List.mem_append_left _ (List.mem_of_mem_eraseIdx he')
    · exact List.mem_append_right _ he'
  | stepCaller =>
    exact .inr ⟨(List.length_modify ..).trans (List.length_modify ..), fun _ he => he⟩
  | stepAttempt k pick a p call stand ha =>
    have he := envelopes_putAttempt (s := s.putCall a.envelope.call call) ha stand
    exact .inr ⟨List.length_modify .., fun e hm => by rw [he] at hm; exact hm⟩
  | finish k r a ha =>
    exact .inr ⟨rfl, fun e hm => by rw [envelopes_putAttempt ha] at hm; exact hm⟩
  | tick later => exact .inr ⟨rfl, fun _ he => he⟩

theorem Sound.call_lt (h : s.Sound) {e : Envelope A} (he : e ∈ s.envelopes) :
    e.call < s.parties.length := by
  obtain ⟨p, hp, -⟩ := Option.map_eq_some_iff.mp (h.faithful e he)
  exact (List.getElem?_eq_some_iff.mp hp).1

theorem Sound.course_launch (h : s.Sound) (thread : ThreadId) (args : A) (bound : WaitBound)
    (ht : s.move (.launch thread args bound) = some t) :
    t.course s.parties.length { thread, args, bound } = {} := by
  obtain rfl := Option.some.inj ht
  have hitems : s.items.countP (·.call = s.parties.length) = 0 := by
    rw [List.countP_eq_zero]
    intro e he
    simpa using Nat.ne_of_lt (h.call_lt (List.mem_append_left _ he))
  have hattempts : s.attempts.filter (·.envelope.call = s.parties.length) = [] := by
    rw [List.filter_eq_nil_iff]
    intro a ha
    have he : a.envelope ∈ s.envelopes := List.mem_append_right _ (List.mem_map_of_mem ha)
    simpa using Nat.ne_of_lt (h.call_lt he)
  simp [course, stands, hattempts, hitems]

/-- A call after a move is one from before, gone on by a step at most, or a new one. -/
theorem Sound.move_party (h : s.Sound) (ht : s.move m = some t) {q : Party A V}
    (hq : t.parties[i]? = some q) :
    (∃ p, s.parties[i]? = some p ∧ q.args = p.args ∧
      (t.course i q = s.course i p ∨ (s.course i p).Step p.bound (t.course i q))) ∨
      t.course i q = {} := by
  by_cases hi : i < s.parties.length
  · have hp := List.getElem?_eq_getElem hi
    obtain ⟨q', hq', -, hargs, -, hstep⟩ := move_follows m hp ht
    obtain rfl := Option.some.inj (hq'.symm.trans hq)
    exact .inl ⟨_, hp, hargs, hstep⟩
  · have hlt := (List.getElem?_eq_some_iff.mp hq).1
    rcases move_parties ht with ⟨thread, args, bound, rfl⟩ | ⟨hlen, -⟩
    · have hnew := h.course_launch thread args bound ht
      obtain rfl := Option.some.inj ht
      obtain rfl : i = s.parties.length := by
        rw [List.length_append, List.length_singleton] at hlt
        omega
      rw [List.getElem?_concat_length, Option.some.injEq] at hq
      exact .inr (hq ▸ hnew)
    · omega

theorem Sound.move (h : s.Sound) (ht : s.move m = some t) : t.Sound := by
  have hold : ∀ e ∈ s.envelopes, (t.parties[e.call]?).map Party.args = some e.args := by
    intro e he
    obtain ⟨p, hp, hpe⟩ := Option.map_eq_some_iff.mp (h.faithful e he)
    obtain ⟨q, hq, -, hqp, -⟩ := move_follows m hp ht
    rw [hq, Option.map_some, hqp, hpe]
  refine ⟨?_, fun i q hq => ?_⟩
  · rcases move_parties ht with ⟨thread, args, bound, rfl⟩ | ⟨-, henv⟩
    · obtain rfl := Option.some.inj ht
      intro e he
      simp only [envelopes, List.append_assoc, List.singleton_append, List.mem_append,
        List.mem_cons] at he
      rcases he with he | rfl | he
      · exact hold e (List.mem_append_left _ he)
      · simp
      · exact hold e (List.mem_append_right _ he)
    · exact fun e he => hold e (henv e he)
  · rcases h.move_party ht hq with ⟨p, hp, -, hsame | hstep⟩ | hnew
    · exact hsame ▸ h.courses i p hp
    · exact hstep.sound (h.courses i p hp)
    · exact hnew ▸ Course.sound_new

theorem Reachable.sound (h : s.Reachable) : s.Sound := by
  refine CrossCall.Reachable.keeps (fun _ _ _ hs hm => hs.move hm) h ?_
  rintro s ⟨hp, hi, ha⟩
  refine ⟨fun e he => ?_, fun i p hi => ?_⟩
  · simp [envelopes, hi, ha] at he
  · simp [hp] at hi

end Scene
end CrossCall.Call
