import CrossCall.Proofs.Call.Patience
import CrossCall.Proofs.Callers.Books
import CrossCall.Proofs.Worker.Order

/-! Which of the calls at a worker are run, and in which order. The worker takes the calls as it
accepted them, one after another, and passes over those alone whose callers had given up when it came
to their gates. So in the end everything that was accepted was run or had been given up, and who
waits without limit is always served. -/

namespace CrossCall.Worker.Callers

variable {A V : Type} {s s₀ t : Callers A V} {ms : List (Move A V)} {i k : Nat}
  {a b : Call.Attempt A V} {p : Call.Party A V}

/-- The calls that were let in, in their order. -/
def acceptedCalls (s : Callers A V) : List (Call.Envelope A) :=
  s.office.deeds.accepted.filterMap Job.call?

/-- The calls that the worker has taken, in its order. -/
def takenCalls (s : Callers A V) : List (Call.Envelope A) :=
  s.traffic.attempts.map Call.Attempt.envelope

/-- The calls of them whose callable was started. -/
def startedCalls (s : Callers A V) : List (Call.Envelope A) :=
  (s.traffic.attempts.filter (·.stand.hasStarted)).map Call.Attempt.envelope

def runsPosted (s : Callers A V) : Bool :=
  match s.office.drain with
  | .running (.posted _) _ => true
  | _ => false

/-- The caller waits without limit. -/
def isUnbounded (s : Callers A V) (e : Call.Envelope A) : Bool :=
  s.traffic.parties[e.call]?.any (·.bound = .infinite)

/-- In the run of these moves the worker stands at the gate of attempt `k` in state `u`, with the
lock taken, and passes it next. -/
def AtGate (s₀ : Callers A V) (ms : List (Move A V)) (k : Nat) (u : Callers A V) : Prop :=
  ∃ before m after v a b, ms = before ++ m :: after ∧ afterMoves move s₀ before = some u ∧
    u.move m = some v ∧ u.traffic.attempts[k]? = some a ∧ a.stand = .entering .holding ∧
    v.traffic.attempts[k]? = some b ∧ ¬ b.stand.isEntering

/-! ### The order -/

theorem mem_acceptedCalls {e : Call.Envelope A} :
    e ∈ s.acceptedCalls ↔ .call e ∈ s.office.deeds.accepted := by
  refine ⟨fun he => ?_, fun he => List.mem_filterMap.mpr ⟨_, he, rfl⟩⟩
  obtain ⟨job, hjob, hcall⟩ := List.mem_filterMap.mp he
  cases job with
  | call e' => exact Option.some.inj hcall ▸ hjob
  | posted number => cases hcall

theorem Reachable.taken_prefix (h : s.Reachable) : s.takenCalls <+: s.acceptedCalls := by
  rw [takenCalls, h.books.order, acceptedCalls, h.office.sound.fifo, List.filterMap_append]
  exact List.prefix_append _ _

theorem Reachable.accepted_of_attempt (h : s.Reachable) (ha : a ∈ s.traffic.attempts) :
    .call a.envelope ∈ s.office.deeds.accepted :=
  mem_acceptedCalls.mp (h.taken_prefix.subset (List.mem_map_of_mem ha))

theorem Reachable.startedCalls_sublist (h : s.Reachable) :
    s.startedCalls.Sublist s.acceptedCalls :=
  (List.filter_sublist.map _).trans h.taken_prefix.sublist

/-- What a step does to the attempts: the worker begins one, or its own, the last one, goes on. -/
theorem Step.attempts (hr : s.Reachable) (h : s.Step t) :
    t.traffic.attempts = s.traffic.attempts ∨
      (∃ a, t.traffic.attempts = s.traffic.attempts ++ [a] ∧ a.stand = .entering .locking) ∨
      ∃ done a b, s.traffic.attempts = done ++ [a] ∧ t.traffic.attempts = done ++ [b] ∧
        b.envelope = a.envelope ∧ s.traffic.Onward a b.stand := by
  have hown {e : Call.Envelope A} {x : Stand (Job A)} {m : Call.Move A V}
      (hd : s.office.drain = .running (.call e) x) (ht : s.traffic.move m = some t.traffic)
      (hm : (∃ pick, m = .stepAttempt s.attempt pick) ∨ ∃ r, m = .finish s.attempt r) :
      ∃ done a b, s.traffic.attempts = done ++ [a] ∧ t.traffic.attempts = done ++ [b] ∧
        b.envelope = a.envelope ∧ s.traffic.Onward a b.stand := by
    obtain ⟨-, -, done, a, b, hbefore, hafter, -, -, hb, ha, honward⟩ :=
      hr.books.step_attempt hd ht hm
    exact ⟨done, a, b, hbefore, hafter, hb.trans ha.symm, honward⟩
  cases h with
  | ended e pick hd ho ht hover => exact .inr (.inr (hown hd ht (.inl ⟨pick, rfl⟩)))
  | attempt e x m hd ho ht hm hnot => exact .inr (.inr (hown hd ht hm))
  | take e x ho hd ht =>
    obtain ⟨e', -, ht⟩ := Call.Scene.take_cases ht
    exact .inr (.inl ⟨_, by rw [ht], rfl⟩)
  | call u args bound ho ht => exact .inl (by rw [← Option.some.inj ht])
  | accept u e hu ho hidle ht => exact .inl (by rw [Call.Scene.accept_cases ht]; rfl)
  | refuse u e pc between hpc hu ho hidle hd ht =>
    obtain ⟨e', -, rfl⟩ := Call.Scene.drop_cases hd
    exact .inl (by rw [(Call.Scene.refuse_cases ht).2]; rfl)
  | aside m ho ht => exact .inl (by rw [ht])
  | caller i stray ho ht =>
    obtain ⟨call, caller, ht⟩ := Call.Scene.caller_cases ht
    exact .inl (by rw [ht]; rfl)
  | tick later ho ht => exact .inl (by rw [← Option.some.inj ht])

theorem startedCalls_of_append {done : List (Call.Attempt A V)}
    (h : s.traffic.attempts = done ++ [a]) :
    s.startedCalls = (done.filter (·.stand.hasStarted)).map Call.Attempt.envelope ++
      if a.stand.hasStarted then [a.envelope] else [] := by
  rw [startedCalls, h, List.filter_append, List.map_append]
  by_cases hs : a.stand.hasStarted = true <;> simp [hs]

theorem Step.startedCalls (hr : s.Reachable) (h : s.Step t) : s.startedCalls <+: t.startedCalls := by
  rcases h.attempts hr with hsame | ⟨a, hnew, hs⟩ | ⟨done, a, b, hbefore, hafter, he, honward⟩
  · have heq : s.startedCalls = t.startedCalls := by
      rw [Callers.startedCalls, Callers.startedCalls, hsame]
    exact heq ▸ List.prefix_rfl
  · rw [startedCalls_of_append hnew]
    exact List.prefix_append _ _
  · rw [startedCalls_of_append hbefore, startedCalls_of_append hafter, he,
      List.prefix_append_right_inj]
    by_cases hs : a.stand.hasStarted = true
    · simp [hs, honward.hasStarted hs]
    · simp [hs]

theorem Reachable.grows (h : s.Reachable) (ht : CrossCall.Reachable move (· = s) t) :
    s.startedCalls <+: t.startedCalls ∧ s.acceptedCalls <+: t.acceptedCalls := by
  refine ⟨?_, (Scene.grows_run (office_reachable ht)).1.filterMap _⟩
  refine CrossCall.Reachable.keeps_from (P := fun t => s.startedCalls <+: t.startedCalls) h ?_
    List.prefix_rfl ht
  exact fun u m v hu hprefix hm => hprefix.trans ((step_of_move hm).startedCalls hu)

/-- At most one item is run at a time. -/
theorem Books.one_at_a_time (h : s.Books) :
    s.traffic.attempts.countP (!·.stand.isOver) + s.runsPosted.toNat ≤ 1 := by
  obtain ⟨done, current, hattempts, hdone, -, hcurrent⟩ := h.turns
  have hnone : done.countP (!·.stand.isOver) = 0 := by
    rw [List.countP_eq_zero]
    exact fun a ha => by simp [hdone a ha]
  have hle : current.countP (!·.stand.isOver) ≤ current.length := List.countP_le_length
  have hlength := congrArg List.length hcurrent
  have hroom : (s.office.drain.item?.bind Job.call?).toList.length + s.runsPosted.toNat ≤ 1 := by
    rw [runsPosted]
    cases s.office.drain with
    | running item inside => cases item <;> exact Nat.le_refl _
    | _ => exact Nat.zero_le _
  rw [List.length_map] at hlength
  rw [hattempts, List.countP_append, hnone]
  omega

/-! ### The gate -/

/-- The item of a call that was accepted is in the queue or taken. -/
theorem Reachable.kept_of_accepted (h : s.Reachable) {e : Call.Envelope A}
    (he : .call e ∈ s.office.deeds.accepted) :
    s.traffic.envelopes.countP (·.call = e.call) = 1 := by
  obtain ⟨p, hp, hargs⟩ := h.desk.jobs e he
  refine (h.books.kept _ p hp).resolve_left fun hrefused => ?_
  cases h.desk.places _ p hp with
  | handing pc hc => rw [hrefused] at hc; cases hc
  | letIn hc => rw [hrefused] at hc; cases hc
  | refused hc hnot => exact hnot (hargs ▸ he)

/-- A call that the worker has taken is tried once. -/
theorem Reachable.stands_of_attempt (h : s.Reachable) (ha : s.traffic.attempts[k]? = some a) :
    s.traffic.stands a.envelope.call = [a.stand] := by
  have hmem := List.mem_of_getElem? ha
  have hone := h.kept_of_accepted (h.accepted_of_attempt hmem)
  have hcount : s.traffic.envelopes.countP (·.call = a.envelope.call) =
      s.traffic.items.countP (·.call = a.envelope.call) +
        (s.traffic.attempts.filter (·.envelope.call = a.envelope.call)).length := by
    rw [Call.Scene.envelopes, List.countP_append, List.countP_map, ← List.countP_eq_length_filter]
    rfl
  have hin : a ∈ s.traffic.attempts.filter (·.envelope.call = a.envelope.call) :=
    List.mem_filter.mpr ⟨hmem, decide_eq_true rfl⟩
  have hpos := List.length_pos_of_mem hin
  obtain ⟨c, hc⟩ := List.length_eq_one_iff.mp (show
    (s.traffic.attempts.filter (·.envelope.call = a.envelope.call)).length = 1 by omega)
  rw [Call.Scene.stands, hc]
  rw [hc] at hin
  rw [List.map_singleton, List.mem_singleton.mp hin]

theorem Reachable.mem_startedCalls (h : s.Reachable) (ha : s.traffic.attempts[k]? = some a) :
    a.envelope ∈ s.startedCalls ↔ a.stand.hasStarted := by
  constructor
  · intro hm
    obtain ⟨b, hb, he⟩ := List.mem_map.mp hm
    obtain ⟨hb, hs⟩ := List.mem_filter.mp hb
    have hstand : b.stand ∈ s.traffic.stands a.envelope.call :=
      List.mem_map_of_mem (List.mem_filter.mpr ⟨hb, decide_eq_true (congrArg _ he)⟩)
    rw [h.stands_of_attempt ha] at hstand
    exact List.mem_singleton.mp hstand ▸ hs
  · exact fun hs => List.mem_map_of_mem (List.mem_filter.mpr ⟨List.mem_of_getElem? ha, hs⟩)

/-- At the gate of a call, its caller waits for it or has given it up. -/
theorem Reachable.phase_of_entering (h : s.Reachable) (ha : s.traffic.attempts[k]? = some a)
    (hs : a.stand.isEntering) (hp : s.traffic.parties[a.envelope.call]? = some p) :
    p.call.phase = .dispatched ∨ p.call.phase = .abandoned := by
  have hnone : (s.traffic.course a.envelope.call p).stands.filter Call.TargetStand.hasStarted = [] := by
    rw [Call.Scene.course, h.stands_of_attempt ha]
    cases hstand : a.stand with
    | entering pc => rfl
    | _ => rw [hstand] at hs; cases hs
  have hstage := (h.traffic.sound.courses _ p hp).stage
  rw [hnone] at hstage
  exact hstage.of_nil

/-- An attempt that is past the gate was there before, on its way. -/
theorem Step.back (hr : s.Reachable) (h : s.Step t) (hb : t.traffic.attempts[k]? = some b)
    (hpast : ¬ b.stand.isEntering) :
    ∃ a, s.traffic.attempts[k]? = some a ∧ b.envelope = a.envelope ∧
      s.traffic.Onward a b.stand := by
  rcases h.attempts hr with hsame | ⟨a, hnew, hs⟩ | ⟨done, a, c, hbefore, hafter, he, honward⟩
  · exact ⟨b, hsame ▸ hb, rfl, .rest⟩
  · rw [hnew] at hb
    rcases Nat.lt_or_ge k s.traffic.attempts.length with hlt | hge
    · rw [List.getElem?_append_left hlt] at hb
      exact ⟨b, hb, rfl, .rest⟩
    · rw [List.getElem?_append_right hge] at hb
      obtain rfl := List.mem_singleton.mp (List.mem_of_getElem? hb)
      rw [hs] at hpast
      exact absurd rfl hpast
  · rw [hafter] at hb
    rw [hbefore]
    rcases Nat.lt_or_ge k done.length with hlt | hge
    · rw [List.getElem?_append_left hlt] at hb ⊢
      exact ⟨b, hb, rfl, .rest⟩
    · rw [List.getElem?_append_right hge] at hb ⊢
      obtain rfl := List.mem_singleton.mp (List.mem_of_getElem? hb)
      have hk : k - done.length = 0 := by
        have hlt := (List.getElem?_eq_some_iff.mp hb).1
        rw [List.length_singleton] at hlt
        omega
      exact ⟨a, by rw [hk]; rfl, he, honward⟩

/-- An attempt that is past the gate was turned away there if and only if its caller had given the
call up by then. -/
theorem exists_gate (h₀ : s₀.isStart) (hs : afterMoves move s₀ ms = some s)
    (ha : s.traffic.attempts[k]? = some a) (hpast : ¬ a.stand.isEntering) :
    ∃ u, s₀.AtGate ms k u ∧ CrossCall.Reachable move (· = u) s ∧
      (a.envelope ∉ s.startedCalls ↔ u.traffic.HasAbandoned a.envelope.call) := by
  have hstart : ¬ ∃ a, s₀.traffic.attempts[k]? = some a ∧ ¬ a.stand.isEntering := by
    rintro ⟨a, ha, -⟩
    rw [h₀.2.1.2.2] at ha
    cases ha
  obtain ⟨before, m, after, u, v, hms, hu, hm, hv, hnot, b, hb, hbs⟩ :=
    exists_turn (P := fun s => ∃ a, s.traffic.attempts[k]? = some a ∧ ¬ a.stand.isEntering) hs
      hstart ⟨a, ha, hpast⟩
  have hreach : s.Reachable := .trans (.start h₀) (.of_afterMoves hs)
  have hur : u.Reachable := .trans (.start h₀) (.of_afterMoves hu)
  obtain ⟨c, hc, he, honward⟩ := (step_of_move hm).back hur hb hbs
  have hcs : c.stand.isEntering := Decidable.not_not.mp fun hcs => hnot ⟨c, hc, hcs⟩
  obtain ⟨hhold, p, hp, hiff⟩ := honward.gate hcs hbs
  -- What was settled at the gate holds of the attempt as it is now.
  have hlater := traffic_reachable (.of_afterMoves hv)
  obtain ⟨a', ha', -, hstarted⟩ := Call.Scene.Reachable.beyond hlater hb hbs
  obtain rfl := Option.some.inj (ha.symm.trans ha')
  obtain ⟨a', ha', -, he'⟩ := Call.Scene.Reachable.attempt hlater hb
  obtain rfl := Option.some.inj (ha.symm.trans ha')
  refine ⟨u, ⟨before, m, after, v, c, b, hms, hu, hm, hc, hhold, hb, hbs⟩,
    .trans (.move m (.refl u) hm) (.of_afterMoves hv), ?_⟩
  rw [hreach.mem_startedCalls ha, hstarted, hiff, he', he]
  constructor
  · intro hd
    exact ⟨p, hp, (hur.phase_of_entering hc hcs hp).resolve_left hd⟩
  · rintro ⟨q, hq, hphase⟩ hd
    obtain rfl := Option.some.inj (hp.symm.trans hq)
    rw [hd] at hphase
    cases hphase

/-! ### After the worker's thread has left -/

theorem Reachable.over_of_left (h : s.Reachable) (hleft : s.office.drain.hasLeft) :
    ∀ a ∈ s.traffic.attempts, a.stand.isOver := by
  have hitem : s.office.drain.item? = none := by
    cases hd : s.office.drain <;> first | rfl | (rw [hd] at hleft; cases hleft)
  obtain ⟨done, current, hattempts, hdone, -, hcurrent⟩ := h.books.turns
  rw [hitem] at hcurrent
  obtain rfl : current = [] := List.map_eq_nil_iff.mp hcurrent
  rw [hattempts, List.append_nil]
  exact hdone

/-- What was accepted has been taken by then. -/
theorem Reachable.taken_of_left (h : s.Reachable) (hleft : s.office.drain.hasLeft) :
    s.takenCalls = s.acceptedCalls := by
  rw [takenCalls, h.books.order, acceptedCalls, h.office.sound.fifo,
    (h.office.sound.left hleft).2, List.append_nil]

theorem Reachable.attempt_of_left (h : s.Reachable) (hleft : s.office.drain.hasLeft)
    {e : Call.Envelope A} (he : e ∈ s.acceptedCalls) :
    ∃ (k : Nat) (a : Call.Attempt A V) (r : Option (Except Payload V)),
      s.traffic.attempts[k]? = some a ∧ a.envelope = e ∧ a.stand = .over r := by
  rw [← h.taken_of_left hleft] at he
  obtain ⟨a, hm, he⟩ := List.mem_map.mp he
  obtain ⟨k, ha⟩ := List.mem_iff_getElem?.mp hm
  have hover := h.over_of_left hleft a hm
  cases hstand : a.stand with
  | «over» r => exact ⟨k, a, r, ha, he, hstand⟩
  | _ => rw [hstand] at hover; cases hover

theorem Reachable.ranOnce (h : s.Reachable) (ha : s.traffic.attempts[k]? = some a)
    {r : Except Payload V} (hs : a.stand = .over (some r)) :
    s.traffic.RanOnce a.envelope.call a.envelope.args r := by
  have hfaithful := h.traffic.sound.faithful a.envelope
    (List.mem_append_right _ (List.mem_map_of_mem (List.mem_of_getElem? ha)))
  obtain ⟨p, hp, hargs⟩ := Option.map_eq_some_iff.mp hfaithful
  rw [← hargs]
  refine h.traffic.sound.ranOnce hp ?_
  rw [Call.Scene.course, h.stands_of_attempt ha, hs]
  rfl

/-- Nobody who waits without limit gives a call up. -/
theorem Reachable.not_abandoned (h : s.Reachable) {e : Call.Envelope A} (he : s.isUnbounded e) :
    ¬ s.traffic.HasAbandoned e.call := by
  rintro ⟨p, hp, hphase⟩
  rw [isUnbounded, hp] at he
  refine h.traffic.not_abandoned hp (fun since => ?_) hphase
  rw [of_decide_eq_true he]
  exact WaitBound.not_isDue_infinite

/-- Once the worker's thread has left, a call was run once or had been given up at its gate, which it
is for good. -/
theorem ran_or_abandoned (h₀ : s₀.isStart) (hs : afterMoves move s₀ ms = some s)
    (hleft : s.office.drain.hasLeft) {e : Call.Envelope A} (he : e ∈ s.acceptedCalls) :
    (∃ r, s.traffic.RanOnce e.call e.args r) ∨ e ∉ s.startedCalls ∧
      ∃ k u, s.takenCalls[k]? = some e ∧ s₀.AtGate ms k u ∧ u.traffic.HasAbandoned e.call ∧
        s.traffic.HasAbandoned e.call := by
  have hreach : s.Reachable := .trans (.start h₀) (.of_afterMoves hs)
  obtain ⟨k, a, r, ha, rfl, hstand⟩ := hreach.attempt_of_left hleft he
  cases r with
  | some r => exact .inl ⟨r, hreach.ranOnce ha hstand⟩
  | none =>
    have hnot : a.envelope ∉ s.startedCalls := by
      rw [hreach.mem_startedCalls ha, hstand]
      exact Bool.false_ne_true
    obtain ⟨u, hu, hus, hiff⟩ := exists_gate h₀ hs ha (by rw [hstand]; exact Bool.false_ne_true)
    have hgone := hiff.mp hnot
    have hur : u.traffic.Reachable := by
      obtain ⟨before, -, -, -, -, -, -, hbefore, -⟩ := hu
      exact Reachable.traffic (.trans (.start h₀) (.of_afterMoves hbefore))
    refine .inr ⟨hnot, k, u, ?_, hu, hgone, hur.stays_abandoned hgone (traffic_reachable hus)⟩
    rw [takenCalls, List.getElem?_map, ha]
    rfl

theorem ran_of_isUnbounded (h₀ : s₀.isStart) (hs : afterMoves move s₀ ms = some s)
    (hleft : s.office.drain.hasLeft) {e : Call.Envelope A} (he : e ∈ s.acceptedCalls)
    (hu : s.isUnbounded e) : ∃ r, s.traffic.RanOnce e.call e.args r := by
  have hreach : s.Reachable := .trans (.start h₀) (.of_afterMoves hs)
  rcases ran_or_abandoned h₀ hs hleft he with hran | ⟨-, k, u, -, -, -, hgone⟩
  · exact hran
  · exact absurd hgone (hreach.not_abandoned hu)

/-- The one run of a call is the attempt that the worker made at it. -/
theorem Reachable.hasStarted_of_ranOnce (h : s.Reachable) (ha : s.traffic.attempts[k]? = some a)
    {args : A} {r : Except Payload V} (hran : s.traffic.RanOnce a.envelope.call args r) :
    a.stand.hasStarted := by
  obtain ⟨b, hruns, -⟩ := hran
  have hb : b ∈ s.traffic.runs a.envelope.call := hruns ▸ List.mem_singleton_self b
  obtain ⟨hm, hb⟩ := List.mem_filter.mp hb
  rw [Bool.and_eq_true, decide_eq_true_eq] at hb
  have hstand : b.stand ∈ s.traffic.stands a.envelope.call :=
    List.mem_map_of_mem (List.mem_filter.mpr ⟨hm, decide_eq_true hb.2⟩)
  rw [h.stands_of_attempt ha] at hstand
  exact List.mem_singleton.mp hstand ▸ hb.1

/-- Those without limit have all been run, in order. -/
theorem filter_of_left (h₀ : s₀.isStart) (hs : afterMoves move s₀ ms = some s)
    (hleft : s.office.drain.hasLeft) :
    s.startedCalls.filter s.isUnbounded = s.acceptedCalls.filter s.isUnbounded := by
  have hreach : s.Reachable := .trans (.start h₀) (.of_afterMoves hs)
  have htaken := hreach.taken_of_left hleft
  have hstarted {a : Call.Attempt A V} (ha : a ∈ s.traffic.attempts)
      (hu : s.isUnbounded a.envelope) : a.stand.hasStarted := by
    obtain ⟨k, hk⟩ := List.mem_iff_getElem?.mp ha
    obtain ⟨r, hran⟩ := ran_of_isUnbounded h₀ hs hleft (htaken ▸ List.mem_map_of_mem ha) hu
    exact hreach.hasStarted_of_ranOnce hk hran
  rw [← htaken, takenCalls, startedCalls, List.filter_map, List.filter_map, List.filter_filter]
  refine congrArg _ (List.filter_congr fun a ha => ?_)
  cases hu : s.isUnbounded a.envelope with
  | true => simp [hu, hstarted ha hu]
  | false => simp [hu]

/-- The calls whose callable the worker starts are some of those it accepted, in that order, each
once. A call that the worker has come to is not among them if and only if its caller had given it up
when the worker stood at its gate. No two runs overlap, of callables or of what else was posted. And
when the worker's thread has left its loop, every call that was accepted has been run once or had
been given up before its turn; those without limit have all been run, in the order in which they
were accepted. -/
theorem calls_run_in_the_accepted_order (h₀ : s₀.isStart) (hs : afterMoves move s₀ ms = some s) :
    (s.startedCalls.Sublist s.acceptedCalls ∧ s.takenCalls <+: s.acceptedCalls ∧
      s.acceptedCalls.Nodup) ∧
    (∀ ns t, afterMoves move s ns = some t →
      s.startedCalls <+: t.startedCalls ∧ s.acceptedCalls <+: t.acceptedCalls) ∧
    (∀ (k : Nat) a, s.traffic.attempts[k]? = some a → ¬ a.stand.isEntering → ∃ u,
      s₀.AtGate ms k u ∧
        (a.envelope ∉ s.startedCalls ↔ u.traffic.HasAbandoned a.envelope.call)) ∧
    s.traffic.attempts.countP (!·.stand.isOver) + s.runsPosted.toNat ≤ 1 ∧
    (s.office.drain.hasLeft →
      (∀ e ∈ s.acceptedCalls, (∃ r, s.traffic.RanOnce e.call e.args r) ∨
        e ∉ s.startedCalls ∧ ∃ k u, s.takenCalls[k]? = some e ∧ s₀.AtGate ms k u ∧
          u.traffic.HasAbandoned e.call) ∧
      (∀ e ∈ s.acceptedCalls, s.isUnbounded e → ∃ r, s.traffic.RanOnce e.call e.args r) ∧
      s.startedCalls.filter s.isUnbounded = s.acceptedCalls.filter s.isUnbounded) := by
  have hreach : s.Reachable := .trans (.start h₀) (.of_afterMoves hs)
  refine ⟨⟨hreach.startedCalls_sublist, hreach.taken_prefix, hreach.desk.once⟩,
    fun ns t ht => hreach.grows (.of_afterMoves ht), fun k a ha hpast => ?_,
    hreach.books.one_at_a_time, fun hleft => ⟨fun e he => ?_,
      fun e he => ran_of_isUnbounded h₀ hs hleft he, filter_of_left h₀ hs hleft⟩⟩
  · obtain ⟨u, hu, -, hiff⟩ := exists_gate h₀ hs ha hpast
    exact ⟨u, hu, hiff⟩
  · rcases ran_or_abandoned h₀ hs hleft he with hran | ⟨hnot, k, u, htaken, hu, hgone, -⟩
    · exact .inl hran
    · exact .inr ⟨hnot, k, u, htaken, hu, hgone⟩

/-- While the first call runs, the second is given up; between it and the third something else is
posted. Then the worker is exited and drains. -/
def secondGivenUp : List (Move Nat Nat) :=
  List.flatten [[.call 0 7 .infinite], List.replicate 4 (.step 0),
    [.drain, .stepAttempt 0, .stepAttempt 0, .call 1 8 (.within .zero)],
    List.replicate 4 (.step 1), List.replicate 8 (.stepCaller 1 false), [.post 2 5],
    List.replicate 4 (.step 2), [.call 3 9 .infinite], List.replicate 4 (.step 3),
    [.finishCallable (.ok 49)], List.replicate 7 (.stepAttempt 0),
    [.drain, .drain, .drain, .stepAttempt 0, .stepAttempt 0, .drain, .drain, .drain,
      .finish false, .drain, .drain, .drain, .stepAttempt 0, .stepAttempt 0,
      .finishCallable (.ok 81)],
    List.replicate 7 (.stepAttempt 0), [.exit 2, .step 2, .step 2, .drain, .drain, .drain]]

/-- A worker on thread 4, and four threads that have nothing to do. -/
def fourIdle : Callers Nat Nat where
  office := { worker := { name := "w", thread := 4 }, threads := [.idle, .idle, .idle, .idle] }
  traffic := { strict := true }

theorem calls_run_in_the_accepted_order_second_given_up :
    ∃ s, afterMoves move fourIdle secondGivenUp = some s ∧ s.office.drain.hasLeft ∧
      s.acceptedCalls = [⟨0, 7⟩, ⟨1, 8⟩, ⟨2, 9⟩] ∧ s.startedCalls = [⟨0, 7⟩, ⟨2, 9⟩] ∧
      (∃ r, s.traffic.RanOnce 2 9 r) ∧ ∃ k u, s.takenCalls[k]? = some ⟨1, 8⟩ ∧
        fourIdle.AtGate secondGivenUp k u ∧ u.traffic.HasAbandoned 1 := by
  have h₀ : fourIdle.isStart := ⟨⟨⟨"w", 4, rfl, by decide⟩, by decide, rfl, rfl⟩, ⟨rfl, rfl, rfl⟩, rfl⟩
  obtain ⟨s, hs, hleft, haccepted, hstarted, hunbounded, hnone⟩ :
      ∃ s, afterMoves move fourIdle secondGivenUp = some s ∧ s.office.drain.hasLeft = true ∧
        s.acceptedCalls = [⟨0, 7⟩, ⟨1, 8⟩, ⟨2, 9⟩] ∧ s.startedCalls = [⟨0, 7⟩, ⟨2, 9⟩] ∧
        s.isUnbounded ⟨2, 9⟩ = true ∧ s.traffic.runs 1 = [] :=
    ⟨_, rfl, rfl, rfl, rfl, rfl, rfl⟩
  obtain ⟨-, -, -, -, hend⟩ := calls_run_in_the_accepted_order h₀ hs
  obtain ⟨hend, hserved, -⟩ := hend hleft
  rw [haccepted] at hend hserved
  refine ⟨s, hs, hleft, haccepted, hstarted, hserved ⟨2, 9⟩ (by decide) hunbounded, ?_⟩
  rcases hend ⟨1, 8⟩ (by decide) with ⟨r, a, hruns, -⟩ | ⟨-, hgone⟩
  · rw [hnone] at hruns
    cases hruns
  · exact hgone

end CrossCall.Worker.Callers
