import CrossCall.Proofs.Call.Gate
import CrossCall.Proofs.Callers.Desk

/-! The worker at the items of calls. The attempts are those items that the worker has started, in
its order; all of them are over but the one that it runs; and the item of a call is in the queue or
taken, unless the call was refused. -/

namespace CrossCall.Worker

variable {A V : Type}

theorem DrainStand.item?_of_inside {ι : Type} {drain : DrainStand ι} (h : drain.inside = none) :
    drain.item? = none := by
  cases drain <;> first | rfl | cases h

/-- The calls among the items that the worker has started, and the call that it runs. -/
theorem Scene.Aside.calls {s t : Scene (Job A)} {m : Move (Job A)} (h : s.Aside t m) :
    t.deeds.started.filterMap Job.call? = s.deeds.started.filterMap Job.call? ∧
      t.drain.item?.bind Job.call? = s.drain.item?.bind Job.call? := by
  have hends := h.ends
  have htakes := h.takes
  cases effect_of_move h.move with
  | begin u operation hidle ht =>
    subst ht
    exact ⟨rfl, rfl⟩
  | step u x x' worker deeds hx hturn ht =>
    subst ht
    exact ⟨congrArg _ hturn.started.1, rfl⟩
  | beginInside item operation hd ht =>
    subst ht
    rw [hd]
    exact ⟨rfl, rfl⟩
  | stepInside item x x' worker deeds hd hturn ht =>
    subst ht
    rw [hd]
    exact ⟨congrArg _ hturn.started.1, rfl⟩
  | finish item unwound hd ht =>
    subst ht
    rw [hd]
    cases item with
    | call e => exact absurd hd (hends unwound e .idle rfl)
    | posted number => exact ⟨rfl, rfl⟩
  | take item rest hd hi ht =>
    subst ht
    rw [hd]
    cases item with
    | call e => exact absurd rfl (htakes e .idle rfl)
    | posted number => exact ⟨by simp [Job.call?], rfl⟩
  | drain worker drain hnone hinside hthread ht =>
    subst ht
    rw [hnone, DrainStand.item?_of_inside hinside]
    exact ⟨rfl, rfl⟩

namespace Callers

variable {s t : Callers A V} {i : Nat} {p : Call.Party A V}

structure Books (s : Callers A V) : Prop where
  order : s.traffic.attempts.map Call.Attempt.envelope =
    s.office.deeds.started.filterMap Job.call?
  turns : ∃ done current, s.traffic.attempts = done ++ current ∧ (∀ a ∈ done, a.stand.isOver) ∧
    (∀ a ∈ current, ¬ a.stand.isOver) ∧
    current.map Call.Attempt.envelope = (s.office.drain.item?.bind Job.call?).toList
  kept : ∀ i p, s.traffic.parties[i]? = some p →
    p.caller = .returned (.error (.dispatch .closed)) ∨
      s.traffic.envelopes.countP (·.call = i) = 1

theorem books_of_isStart (h : s.isStart) : s.Books := by
  obtain ⟨⟨-, -, hd, hdeeds⟩, ⟨hparties, hitems, hattempts⟩, -⟩ := h
  refine ⟨?_, ⟨[], [], ?_, nofun, nofun, ?_⟩, fun i p hp => ?_⟩
  · rw [hattempts, hdeeds]
    rfl
  · rw [hattempts]
    rfl
  · rw [hd]
    rfl
  · rw [hparties] at hp
    cases hp

/-- The calls among what the worker does are as they were, and so are the attempts. -/
theorem Books.calls (h : s.Books) (hattempts : t.traffic.attempts = s.traffic.attempts)
    (hstarted : t.office.deeds.started.filterMap Job.call? =
      s.office.deeds.started.filterMap Job.call?)
    (hitem : t.office.drain.item?.bind Job.call? = s.office.drain.item?.bind Job.call?)
    (hkept : ∀ i p, t.traffic.parties[i]? = some p →
      p.caller = .returned (.error (.dispatch .closed)) ∨
        t.traffic.envelopes.countP (·.call = i) = 1) : t.Books := by
  refine ⟨?_, ?_, hkept⟩
  · rw [hattempts, hstarted]
    exact h.order
  · rw [hattempts, hitem]
    exact h.turns

theorem Books.kept_of_carries (h : s.Books) (hcarries : s.traffic.Carries t.traffic)
    (henvelopes : ∀ i, t.traffic.envelopes.countP (·.call = i) =
      s.traffic.envelopes.countP (·.call = i)) (i : Nat) (q : Call.Party A V)
    (hq : t.traffic.parties[i]? = some q) :
    q.caller = .returned (.error (.dispatch .closed)) ∨
      t.traffic.envelopes.countP (·.call = i) = 1 := by
  obtain ⟨p, hp, -, -, hc⟩ := hcarries.back hq
  rw [henvelopes]
  rcases h.kept i p hp with hr | hone
  · refine .inl ?_
    rcases hc with hc | ⟨hc, -⟩
    · exact hc.trans hr
    · rw [hr] at hc
      cases hc
  · exact .inr hone

theorem call_of_itemOf {call : Nat} {e : Call.Envelope A}
    (h : s.traffic.items[s.itemOf call]? = some e) : e.call = call := by
  obtain ⟨hlt, rfl⟩ := List.getElem?_eq_some_iff.mp h
  exact of_decide_eq_true
    (List.findIdx_getElem (p := fun e : Call.Envelope A => decide (e.call = call)) (w := hlt))

theorem Books.call (hr : s.Reachable) (h : s.Books) {u : ThreadId} {args : A} {bound : WaitBound}
    (ho : s.office.move (.begin u (.enqueue (.call ⟨s.traffic.parties.length, args⟩))) =
      some t.office)
    (ht : s.traffic.move (.launch u args bound) = some t.traffic) : t.Books := by
  have hsound := hr.traffic.sound
  have htraffic := (Option.some.inj ht).symm
  have hparties := congrArg Call.Scene.parties htraffic
  have henvelopes (i : Nat) : t.traffic.envelopes.countP (·.call = i) =
      s.traffic.envelopes.countP (·.call = i) +
        if s.traffic.parties.length = i then 1 else 0 := by
    rw [htraffic]
    simp only [Call.Scene.envelopes, List.countP_append, List.countP_singleton, decide_eq_true_eq]
    omega
  cases Scene.effect_of_move ho with
  | begin u operation hidle heq =>
    refine h.calls (by rw [htraffic]) (by rw [heq]) (by rw [heq]) fun i q hq => ?_
    rw [henvelopes]
    by_cases hi : i < s.traffic.parties.length
    · rw [if_neg (Nat.ne_of_gt hi), Nat.add_zero]
      refine h.kept i q ?_
      rwa [hparties, List.getElem?_append_left hi] at hq
    · have hlt := (List.getElem?_eq_some_iff.mp hq).1
      rw [hparties, List.length_append, List.length_singleton] at hlt
      obtain rfl : i = s.traffic.parties.length := by omega
      have hnone : s.traffic.envelopes.countP (·.call = s.traffic.parties.length) = 0 := by
        rw [List.countP_eq_zero]
        intro e he
        simpa using Nat.ne_of_lt (hsound.call_lt he)
      rw [if_pos rfl, hnone]
      exact .inr rfl

theorem Books.accept (hdesk : s.Desk) (h : s.Books) {u : ThreadId} {e : Call.Envelope A}
    (hu : s.office.threads[u]? = some (.enqueuing (.call e) .releasing))
    (ho : s.office.move (.step u) = some t.office) (hidle : t.office.threads[u]? = some .idle)
    (ht : s.traffic.move (.accept e.call) = some t.traffic) : t.Books := by
  obtain ⟨p, hp, -, -, hc, -⟩ := hdesk.place_of_handing hu
  obtain ⟨-, hdrain, -, hstarted⟩ := (Scene.effect_of_move ho).answered hu hidle
  have htraffic := Call.Scene.accept_cases ht
  refine h.calls (by rw [htraffic]; rfl) (by rw [hstarted]) (by rw [hdrain]) fun i q hq => ?_
  rw [show t.traffic.envelopes = s.traffic.envelopes by rw [htraffic]; rfl]
  rw [htraffic] at hq
  by_cases hi : e.call = i
  · subst hi
    rcases h.kept _ p hp with hr | hone
    · rw [hc] at hr
      cases hr
    · exact .inr hone
  · exact h.kept i q ((Call.Scene.parties_modify_ne _ hi).symm.trans hq)

theorem Books.refuse (h : s.Books) {u : ThreadId} {e : Call.Envelope A} {pc : EnqueuePc}
    {between : Call.Scene A V} (hu : s.office.threads[u]? = some (.enqueuing (.call e) pc))
    (ho : s.office.move (.step u) = some t.office) (hidle : t.office.threads[u]? = some .idle)
    (hd : s.traffic.move (.drop (s.itemOf e.call)) = some between)
    (hr : between.move (.refuse e.call .closed) = some t.traffic) : t.Books := by
  obtain ⟨-, hdrain, -, hstarted⟩ := (Scene.effect_of_move ho).answered hu hidle
  obtain ⟨e', he', rfl⟩ := Call.Scene.drop_cases hd
  obtain ⟨-, htraffic⟩ := Call.Scene.refuse_cases hr
  refine h.calls (by rw [htraffic]; rfl) (by rw [hstarted]) (by rw [hdrain]) fun i q hq => ?_
  rw [htraffic] at hq
  by_cases hi : e.call = i
  · subst hi
    obtain ⟨p, hp⟩ : ∃ p, s.traffic.parties[e.call]? = some p := by
      have hlt := (List.getElem?_eq_some_iff.mp hq).1
      exact ⟨_, List.getElem?_eq_getElem (by simpa [Call.Scene.putCaller] using hlt)⟩
    obtain rfl := Option.some.inj ((Call.Scene.parties_modify_self _ hp).symm.trans hq)
    exact .inl rfl
  · -- The item that is dropped is that of the call that is refused.
    have hq' := (Call.Scene.parties_modify_ne _ hi).symm.trans hq
    have hcount := Call.Scene.queued_eraseIdx he' i
    rw [if_neg (fun hei => hi ((call_of_itemOf he').symm.trans hei)), Nat.add_zero] at hcount
    have henvelopes : t.traffic.envelopes.countP (·.call = i) =
        s.traffic.envelopes.countP (·.call = i) := by
      rw [htraffic]
      simp only [Call.Scene.envelopes, Call.Scene.putCaller, List.countP_append, hcount]
    rw [henvelopes]
    exact h.kept i q hq'

theorem Books.take (hr : s.Reachable) (h : s.Books) {e : Call.Envelope A} {x : Stand (Job A)}
    (ho : s.office.move .drain = some t.office) (hd : t.office.drain = .running (.call e) x)
    (ht : s.traffic.move (.take t.office.worker.thread (s.itemOf e.call) false) =
      some t.traffic) : t.Books := by
  have hsound := hr.traffic.sound
  have hcarries := Call.Scene.carries_of_move ht rfl
  obtain ⟨e', he', htraffic⟩ := Call.Scene.take_cases ht
  cases Scene.effect_of_move ho with
  | drain worker drain hnone hinside hthread heq =>
    rw [heq] at hd
    rw [show drain = _ from hd] at hinside
    cases hinside
  | take item rest hd' hi heq =>
    have hitem : item = .call e := by
      rw [heq] at hd
      exact (DrainStand.running.inj hd).1
    subst hitem
    -- The item that the queue keeps for the call is the one that the worker has taken.
    obtain rfl : e' = e := by
      have haccepted : .call e ∈ s.office.deeds.accepted := by
        rw [hr.office.sound.fifo, hi]
        exact List.mem_append_right _ (.head _)
      obtain ⟨p, hp, hargs⟩ := hr.desk.jobs e haccepted
      have hfaithful := hsound.faithful e' (List.mem_append_left _ (List.mem_of_getElem? he'))
      rw [call_of_itemOf he', hp, Option.map_some, Option.some.injEq, hargs] at hfaithful
      obtain ⟨call, args⟩ := e
      obtain ⟨call', args'⟩ := e'
      obtain rfl : call' = call := call_of_itemOf he'
      obtain rfl : args = args' := hfaithful
      rfl
    obtain ⟨done, current, hattempts, hdone, hnot, hcurrent⟩ := h.turns
    rw [hd'] at hcurrent
    obtain rfl : current = [] := List.map_eq_nil_iff.mp hcurrent
    rw [List.append_nil] at hattempts
    refine ⟨?_, ⟨done, [{ thread := t.office.worker.thread, envelope := e' }], ?_, hdone, ?_, ?_⟩,
      h.kept_of_carries hcarries fun i => ?_⟩
    · rw [htraffic, heq, List.map_append, h.order, List.filterMap_append]
      rfl
    · rw [htraffic, hattempts]
    · intro a ha
      obtain rfl := List.mem_singleton.mp ha
      exact nofun
    · rw [hd]
      rfl
    · have hcount := Call.Scene.queued_eraseIdx he' i
      rw [htraffic]
      simp only [Call.Scene.envelopes, List.countP_append, List.map_append, List.map_cons,
        List.map_nil, List.countP_singleton, decide_eq_true_eq]
      omega

/-- The attempt at the call that the worker runs is the last one, and the only one not over. -/
theorem Books.running (h : s.Books) {e : Call.Envelope A} {x : Stand (Job A)}
    (hd : s.office.drain = .running (.call e) x) :
    ∃ done a, s.traffic.attempts = done ++ [a] ∧ s.attempt = done.length ∧
      (∀ b ∈ done, b.stand.isOver) ∧ ¬ a.stand.isOver ∧ a.envelope = e := by
  obtain ⟨done, current, hattempts, hdone, hnot, hcurrent⟩ := h.turns
  rw [hd] at hcurrent
  obtain ⟨a, rfl, he⟩ := List.map_eq_singleton_iff.mp hcurrent
  refine ⟨done, a, hattempts, ?_, hdone, hnot a (.head _), he⟩
  rw [attempt, hattempts, List.length_append, List.length_singleton, Nat.add_sub_cancel]

/-- A move of the attempt that the worker makes leaves all others, and what is queued, alone. -/
theorem Books.step_attempt (h : s.Books) {e : Call.Envelope A} {x : Stand (Job A)}
    {m : Call.Move A V} (hd : s.office.drain = .running (.call e) x)
    (ht : s.traffic.move m = some t.traffic)
    (hm : (∃ pick, m = .stepAttempt s.attempt pick) ∨ ∃ result, m = .finish s.attempt result) :
    t.traffic.items = s.traffic.items ∧
      t.traffic.attempts.map Call.Attempt.envelope =
        s.traffic.attempts.map Call.Attempt.envelope ∧
      ∃ done a b, s.traffic.attempts = done ++ [a] ∧ t.traffic.attempts = done ++ [b] ∧
        t.traffic.attempts[s.attempt]? = some b ∧ (∀ c ∈ done, c.stand.isOver) ∧
        b.envelope = e ∧ a.envelope = e ∧ s.traffic.Onward a b.stand := by
  obtain ⟨done, a, hattempts, hlast, hdone, -, he⟩ := h.running hd
  have ha : s.traffic.attempts[s.attempt]? = some a := by
    rw [hattempts, hlast, List.getElem?_concat_length]
  -- Whatever the move is, it puts the last attempt elsewhere.
  obtain ⟨stand, hitems, hput⟩ : ∃ stand, t.traffic.items = s.traffic.items ∧
      t.traffic.attempts = (s.traffic.putAttempt s.attempt stand).attempts := by
    generalize t.traffic = traffic at ht
    rcases hm with ⟨pick, rfl⟩ | ⟨result, rfl⟩
    · cases Call.Scene.change_of_move ht with
      | stepAttempt _ _ _ _ call stand => exact ⟨stand, rfl, rfl⟩
    · cases Call.Scene.change_of_move ht with
      | finish => exact ⟨_, rfl, rfl⟩
  have hattempts' : t.traffic.attempts = done ++ [{ a with stand }] := by
    rw [hput, Call.Scene.putAttempt, hattempts, hlast, List.modify_eq_take_cons_drop (by simp)]
    simp
  obtain ⟨b, hb, -, -, honward⟩ := Call.Scene.onward_of_move ht ha
  rw [hattempts', hlast, List.getElem?_concat_length] at hb
  obtain rfl := Option.some.inj hb
  refine ⟨hitems, ?_, done, a, _, hattempts, hattempts', ?_, hdone, he, he, honward⟩
  · rw [hattempts', hattempts, List.map_append, List.map_append]
    rfl
  · rw [hattempts', hlast, List.getElem?_concat_length]

theorem Books.step (hr : s.Reachable) (h : s.Books) (hs : s.Step t) : t.Books := by
  have hkept (hcarries : s.traffic.Carries t.traffic) (hitems : t.traffic.items = s.traffic.items)
      (hattempts : t.traffic.attempts.map Call.Attempt.envelope =
        s.traffic.attempts.map Call.Attempt.envelope) :=
    h.kept_of_carries hcarries fun i => by
      rw [Call.Scene.envelopes, Call.Scene.envelopes, hitems, hattempts]
  cases hs with
  | call u args bound ho ht => exact h.call hr ho ht
  | accept u e hu ho hidle ht => exact h.accept hr.desk hu ho hidle ht
  | refuse u e pc between hpc hu ho hidle hd ht => exact h.refuse hu ho hidle hd ht
  | take e x ho hd ht => exact h.take hr ho hd ht
  | aside m ho ht =>
    obtain ⟨hstarted, hitem⟩ := ho.calls
    exact h.calls (by rw [ht]) hstarted hitem fun i p hp => ht ▸ h.kept i p (ht ▸ hp)
  | ended e pick hd ho ht hover =>
    obtain ⟨hitems, hmap, done, -, b, -, hattempts, hlast, hdone, -⟩ :=
      h.step_attempt hd ht (.inl ⟨pick, rfl⟩)
    obtain ⟨b', hb', hover⟩ := hover
    obtain rfl := Option.some.inj (hlast.symm.trans hb')
    cases Scene.effect_of_move ho with
    | finish item unwound hd' heq =>
      refine ⟨?_, ⟨done ++ [b], [], by rw [hattempts, List.append_nil], ?_,
        List.forall_mem_nil _, ?_⟩, hkept (Call.Scene.carries_of_move ht rfl) hitems hmap⟩
      · rw [hmap, heq]
        exact h.order
      · intro c hc
        rcases List.mem_append.mp hc with hc | hc
        · exact hdone c hc
        · exact List.mem_singleton.mp hc ▸ hover
      · rw [heq]
        rfl
  | attempt e x m hd ho ht hm hnot =>
    obtain ⟨hitems, hmap, done, -, b, -, hattempts, hlast, hdone, hb, -⟩ :=
      h.step_attempt hd ht hm
    have hcarries : s.traffic.Carries t.traffic := by
      rcases hm with ⟨pick, rfl⟩ | ⟨result, rfl⟩
      · exact Call.Scene.carries_of_move ht rfl
      · exact Call.Scene.carries_of_move ht rfl
    refine ⟨?_, ⟨done, [b], hattempts, hdone, ?_, ?_⟩, hkept hcarries hitems hmap⟩
    · rw [hmap, ho]
      exact h.order
    · intro c hc
      exact List.mem_singleton.mp hc ▸ hnot b hlast
    · rw [ho, hd, List.map_singleton, hb]
      rfl
  | caller i stray ho ht =>
    have hcarries := Call.Scene.carries_of_move ht rfl
    obtain ⟨call, caller, ht⟩ := Call.Scene.caller_cases ht
    exact h.calls (by rw [ht]; rfl) (by rw [ho]) (by rw [ho])
      (hkept hcarries (by rw [ht]; rfl) (by rw [ht]; rfl))
  | tick later ho ht =>
    have hcarries := Call.Scene.carries_of_move ht rfl
    have ht := (Option.some.inj ht).symm
    exact h.calls (by rw [ht]) (by rw [ho]) (by rw [ho])
      (hkept hcarries (by rw [ht]) (by rw [ht]))

theorem Reachable.books (h : s.Reachable) : s.Books := by
  induction h with
  | start hs => exact books_of_isStart hs
  | move m hr hm ih => exact ih.step hr (step_of_move hm)

end Callers
end CrossCall.Worker
