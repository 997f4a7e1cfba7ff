import CrossCall.Proofs.Call.Apart
import CrossCall.Proofs.Callers.Step

/-! The entrance of the worker, where callers hand in the items of their calls. A caller who has no
answer stands in the enqueue of its own item, a caller who waits has had its item accepted, and one
who was refused has not. Every item of a call that was accepted was accepted once. -/

namespace CrossCall.Call

variable {A V : Type}

/-- The queue has let the call in. -/
def CallerStand.wasLetIn : CallerStand V → Bool
  | .handing | .returned (.error (.dispatch _)) => false
  | _ => true

theorem CallerStep.wasLetIn {bound : WaitBound} {m : Moment} {c c' : Call V}
    {caller caller' : CallerStand V} (h : CallerStep bound m c caller c' caller') :
    caller.wasLetIn ∧ caller'.wasLetIn := by
  cases h with
  | settle since => cases c.phase <;> exact ⟨rfl, rfl⟩
  | _ => exact ⟨rfl, rfl⟩

/-- Every move but a new call and a queue's answer. -/
def Move.isWork : Move A V → Bool
  | .launch _ _ _ | .accept _ | .refuse _ _ => false
  | _ => true

namespace Scene

variable {s t : Scene A V} {m : Move A V} {i : Nat} {p q : Party A V}

/-- The same callers, and none of them was answered. -/
def Carries (s t : Scene A V) : Prop :=
  t.parties.length = s.parties.length ∧ ∀ (i : Nat) p, s.parties[i]? = some p →
    ∃ q, t.parties[i]? = some q ∧ q.thread = p.thread ∧ q.args = p.args ∧
      (q.caller = p.caller ∨ p.caller.wasLetIn ∧ q.caller.wasLetIn)

theorem Carries.back (h : s.Carries t) (hq : t.parties[i]? = some q) :
    ∃ p, s.parties[i]? = some p ∧ q.thread = p.thread ∧ q.args = p.args ∧
      (q.caller = p.caller ∨ p.caller.wasLetIn ∧ q.caller.wasLetIn) := by
  have hi : i < s.parties.length := h.1 ▸ (List.getElem?_eq_some_iff.mp hq).1
  obtain ⟨q', hq', hkept⟩ := h.2 i _ (List.getElem?_eq_getElem hi)
  obtain rfl := Option.some.inj (hq.symm.trans hq')
  exact ⟨_, List.getElem?_eq_getElem hi, hkept⟩

theorem carries_of_move (h : s.move m = some t) (hm : m.isWork) : s.Carries t := by
  refine ⟨?_, fun i p hp => ?_⟩
  · rcases move_parties h with ⟨u, args, bound, rfl⟩ | ⟨hlength, -⟩
    · cases hm
    · exact hlength
  · obtain ⟨q, hq, hthread, hargs, -⟩ := move_follows m hp h
    refine ⟨q, hq, hthread, hargs, ?_⟩
    cases callerMove_of_move h hp with
    | rest m q' hq' hc =>
      obtain rfl := Option.some.inj (hq.symm.trans hq')
      exact .inl hc
    | accept => cases hm
    | refuse e => cases hm
    | step stray call caller hs ht =>
      subst ht
      obtain rfl := Option.some.inj (hq.symm.trans (parties_put hp call caller))
      exact .inr hs.wasLetIn

end Scene
end CrossCall.Call

namespace CrossCall.Worker.Callers

variable {A V : Type} {s t : Callers A V} {i : Nat} {p : Call.Party A V}

/-- Where a caller stands, and whether the item of its call was accepted. -/
inductive Place (s : Callers A V) (i : Nat) (p : Call.Party A V) : Prop where
  | handing (pc : EnqueuePc) : p.caller = .handing →
      s.office.threads[p.thread]? = some (.enqueuing (.call ⟨i, p.args⟩) pc) →
      (pc = .releasing ↔ .call ⟨i, p.args⟩ ∈ s.office.deeds.accepted) → Place s i p
  | letIn : p.caller.wasLetIn → .call ⟨i, p.args⟩ ∈ s.office.deeds.accepted → Place s i p
  | refused : p.caller = .returned (.error (.dispatch .closed)) →
      .call ⟨i, p.args⟩ ∉ s.office.deeds.accepted → Place s i p

structure Desk (s : Callers A V) : Prop where
  /-- Only its caller hands in the item of a call, and has no answer yet. -/
  handing : ∀ (u : ThreadId) e pc, s.office.threads[u]? = some (.enqueuing (.call e) pc) →
    ∃ p, s.traffic.parties[e.call]? = some p ∧ p.thread = u ∧ p.args = e.args ∧
      p.caller = .handing
  inside : ∀ e pc, s.office.drain.inside ≠ some (.enqueuing (.call e) pc)
  places : ∀ i p, s.traffic.parties[i]? = some p → s.Place i p
  jobs : ∀ e, .call e ∈ s.office.deeds.accepted →
    ∃ p, s.traffic.parties[e.call]? = some p ∧ p.args = e.args
  once : (s.office.deeds.accepted.filterMap Job.call?).Nodup

theorem desk_of_isStart (h : s.isStart) : s.Desk := by
  obtain ⟨⟨-, hidle, hd, hdeeds⟩, ⟨hparties, -⟩, -⟩ := h
  refine ⟨fun u e pc hu => ?_, fun e pc hi => ?_, fun i p hp => ?_, fun e he => ?_, ?_⟩
  · cases hidle _ (List.mem_of_getElem? hu)
  · rw [hd] at hi
    cases hi
  · rw [hparties] at hp
    cases hp
  · rw [hdeeds] at he
    cases he
  · rw [hdeeds]
    exact .nil

theorem Desk.place_of_handing (h : s.Desk) {u : ThreadId} {e : Call.Envelope A} {pc : EnqueuePc}
    (hu : s.office.threads[u]? = some (.enqueuing (.call e) pc)) :
    ∃ p, s.traffic.parties[e.call]? = some p ∧ p.thread = u ∧ e = ⟨e.call, p.args⟩ ∧
      p.caller = .handing ∧ (pc = .releasing ↔ .call e ∈ s.office.deeds.accepted) := by
  obtain ⟨p, hp, hthread, hargs, hc⟩ := h.handing u e pc hu
  have he : e = ⟨e.call, p.args⟩ := by rw [hargs]
  refine ⟨p, hp, hthread, he, hc, ?_⟩
  cases h.places e.call p hp with
  | handing pc' hc' hu' hiff =>
    rw [hthread, hu, ← he] at hu'
    obtain ⟨-, rfl⟩ := Stand.enqueuing.inj (Option.some.inj hu')
    rwa [← he] at hiff
  | letIn hc' => rw [hc] at hc'; cases hc'
  | refused hc' => rw [hc] at hc'; cases hc'

/-- The worker's own thread goes on, or the calls by themselves: nobody comes to the entrance. -/
theorem Desk.carry (h : s.Desk) (hthreads : t.office.threads = s.office.threads)
    (haccepted : t.office.deeds.accepted = s.office.deeds.accepted)
    (hinside : ∀ x, t.office.drain.inside = some x → x = .idle ∨ s.office.drain.inside = some x)
    (hcarries : s.traffic.Carries t.traffic) : t.Desk := by
  refine ⟨fun u e pc hu => ?_, fun e pc hi => ?_, fun i q hq => ?_, fun e he => ?_, ?_⟩
  · rw [hthreads] at hu
    obtain ⟨p, hp, hthread, hargs, hc⟩ := h.handing u e pc hu
    obtain ⟨q, hq, hthread', hargs', hc' | ⟨hc', -⟩⟩ := hcarries.2 _ p hp
    · exact ⟨q, hq, hthread'.trans hthread, hargs'.trans hargs, hc'.trans hc⟩
    · rw [hc] at hc'
      cases hc'
  · rcases hinside _ hi with hidle | hi
    · cases hidle
    · exact h.inside e pc hi
  · obtain ⟨p, hp, hthread, hargs, hc⟩ := hcarries.back hq
    have hplace := h.places i p hp
    rcases hc with hc | ⟨hc, hc'⟩
    · cases hplace with
      | handing pc hh hu hiff =>
        exact .handing pc (hc.trans hh) (by rw [hthreads, hthread, hargs, hu])
          (by rw [haccepted, hargs]; exact hiff)
      | letIn hl ha => exact .letIn (hc ▸ hl) (by rw [haccepted, hargs]; exact ha)
      | refused hr ha => exact .refused (hc.trans hr) (by rw [haccepted, hargs]; exact ha)
    · cases hplace with
      | handing pc hh => rw [hh] at hc; cases hc
      | letIn hl ha => exact .letIn hc' (by rw [haccepted, hargs]; exact ha)
      | refused hr => rw [hr] at hc; cases hc
  · rw [haccepted] at he
    obtain ⟨p, hp, hargs⟩ := h.jobs e he
    obtain ⟨q, hq, -, hargs', -⟩ := hcarries.2 _ p hp
    exact ⟨q, hq, hargs'.trans hargs⟩
  · rw [haccepted]
    exact h.once

theorem Desk.call (h : s.Desk) {u : ThreadId} {args : A} {bound : WaitBound}
    (ho : s.office.move (.begin u (.enqueue (.call ⟨s.traffic.parties.length, args⟩))) =
      some t.office)
    (ht : s.traffic.move (.launch u args bound) = some t.traffic) : t.Desk := by
  have hparties : t.traffic.parties = s.traffic.parties ++ [{ thread := u, args, bound }] :=
    congrArg Call.Scene.parties (Option.some.inj ht).symm
  have hold {i : Nat} {p : Call.Party A V} (hp : s.traffic.parties[i]? = some p) :
      t.traffic.parties[i]? = some p := by
    rw [hparties, List.getElem?_append_left (List.getElem?_eq_some_iff.mp hp).1, hp]
  have hnew : t.traffic.parties[s.traffic.parties.length]? = some { thread := u, args, bound } := by
    rw [hparties, List.getElem?_concat_length]
  cases hoffice : Scene.effect_of_move ho with
  | begin u operation hidle heq =>
    have hthreads : t.office.threads = s.office.threads.set u
        (.enqueuing (.call ⟨s.traffic.parties.length, args⟩) .locking) := by rw [heq]; rfl
    have hdeeds : t.office.deeds = s.office.deeds := by rw [heq]
    have hdrain : t.office.drain = s.office.drain := by rw [heq]
    refine ⟨fun v e pc hv => ?_, fun e pc => hdrain ▸ h.inside e pc, fun i q hq => ?_,
      fun e he => ?_, hdeeds ▸ h.once⟩
    · by_cases huv : u = v
      · subst huv
        rw [hthreads, getElem?_set_of_some hidle] at hv
        obtain ⟨hjob, -⟩ := Stand.enqueuing.inj (Option.some.inj hv)
        obtain rfl := Job.call.inj hjob
        exact ⟨_, hnew, rfl, rfl, rfl⟩
      · rw [hthreads, List.getElem?_set_ne huv] at hv
        obtain ⟨p, hp, hrest⟩ := h.handing v e pc hv
        exact ⟨p, hold hp, hrest⟩
    · by_cases hi : i < s.traffic.parties.length
      · have hp := List.getElem?_eq_getElem hi
        obtain rfl := Option.some.inj ((hold hp).symm.trans hq)
        cases h.places i _ hp with
        | handing pc hc hu hiff =>
          have hne : u ≠ s.traffic.parties[i].thread := by
            rintro rfl
            rw [hidle] at hu
            cases hu
          exact .handing pc hc (by rw [hthreads, List.getElem?_set_ne hne, hu])
            (hdeeds ▸ hiff)
        | letIn hl ha => exact .letIn hl (hdeeds ▸ ha)
        | refused hr ha => exact .refused hr (hdeeds ▸ ha)
      · have hlt := (List.getElem?_eq_some_iff.mp hq).1
        rw [hparties, List.length_append, List.length_singleton] at hlt
        obtain rfl : i = s.traffic.parties.length := by omega
        obtain rfl := Option.some.inj (hnew.symm.trans hq)
        refine .handing .locking rfl (by rw [hthreads, getElem?_set_of_some hidle]) ?_
        refine ⟨nofun, fun ha => ?_⟩
        -- The call is new, so no item of it was there to be accepted.
        rw [hdeeds] at ha
        obtain ⟨p, hp, -⟩ := h.jobs _ ha
        exact absurd (List.getElem?_eq_some_iff.mp hp).1 (Nat.lt_irrefl _)
    · rw [hdeeds] at he
      obtain ⟨p, hp, hargs⟩ := h.jobs e he
      exact ⟨p, hold hp, hargs⟩

/-- The worker has answered the caller of call `e`, who has gone on as the answer says. -/
theorem Desk.answer (h : s.Desk) {u : ThreadId} {e : Call.Envelope A} {pc : EnqueuePc}
    {caller : Call.CallerStand V} (hu : s.office.threads[u]? = some (.enqueuing (.call e) pc))
    (ho : s.office.move (.step u) = some t.office)
    (hidle : t.office.threads[u]? = some .idle)
    (hparties : t.traffic.parties =
      s.traffic.parties.modify e.call fun p => { p with caller })
    (hcaller : pc = .releasing ∧ caller.wasLetIn ∨
      pc ≠ .releasing ∧ caller = .returned (.error (.dispatch .closed))) : t.Desk := by
  obtain ⟨p, hp, hthread, he, hc, hiff⟩ := h.place_of_handing hu
  obtain ⟨hthreads, hdrain, haccepted, -⟩ := (Scene.effect_of_move ho).answered hu hidle
  have hself : t.traffic.parties[e.call]? = some { p with caller } := by
    rw [hparties]
    exact Call.Scene.parties_modify_self _ hp
  have hother {i : Nat} (hi : e.call ≠ i) : t.traffic.parties[i]? = s.traffic.parties[i]? := by
    rw [hparties]
    exact Call.Scene.parties_modify_ne _ hi
  refine ⟨fun v e' pc' hv => ?_, fun e' pc' => hdrain ▸ h.inside e' pc', fun i q hq => ?_,
    fun e' he' => ?_, haccepted ▸ h.once⟩
  · have huv : u ≠ v := by
      rintro rfl
      rw [hidle] at hv
      cases hv
    rw [hthreads, List.getElem?_set_ne huv] at hv
    obtain ⟨p', hp', hthread', hrest⟩ := h.handing v e' pc' hv
    have hne : e.call ≠ e'.call := by
      intro heq
      rw [← heq, hp] at hp'
      obtain rfl := Option.some.inj hp'
      exact huv (hthread.symm.trans hthread')
    exact ⟨p', (hother hne).trans hp', hthread', hrest⟩
  · by_cases hi : e.call = i
    · subst hi
      obtain rfl := Option.some.inj (hself.symm.trans hq)
      rw [he] at hiff
      rcases hcaller with ⟨hpc, hl⟩ | ⟨hpc, hr⟩
      · exact .letIn hl (haccepted ▸ hiff.mp hpc)
      · exact .refused hr fun ha => hpc (hiff.mpr (haccepted ▸ ha))
    · have hq' := (hother hi).symm.trans hq
      cases h.places i q hq' with
      | handing pc' hc' hu' hiff' =>
        have hne : u ≠ q.thread := by
          rintro rfl
          rw [hu] at hu'
          obtain ⟨hjob, -⟩ := Stand.enqueuing.inj (Option.some.inj hu')
          exact hi (congrArg Call.Envelope.call (Job.call.inj hjob))
        exact .handing pc' hc' (by rw [hthreads, List.getElem?_set_ne hne, hu'])
          (haccepted ▸ hiff')
      | letIn hl ha => exact .letIn hl (haccepted ▸ ha)
      | refused hr ha => exact .refused hr (haccepted ▸ ha)
  · rw [haccepted] at he'
    obtain ⟨p', hp', hargs⟩ := h.jobs e' he'
    by_cases hi : e.call = e'.call
    · rw [← hi, hp] at hp'
      obtain rfl := Option.some.inj hp'
      exact ⟨{ p with caller }, hi ▸ hself, hargs⟩
    · exact ⟨p', (hother hi).trans hp', hargs⟩

/-- What is newly accepted of calls, their callers have just sent. -/
theorem Desk.accepts (h : s.Desk) {office : Scene (Job A)} {m : Worker.Move (Job A)}
    (ho : s.office.Effect office m) :
    office.deeds.accepted = s.office.deeds.accepted ∨
      ∃ job, office.deeds.accepted = s.office.deeds.accepted ++ [job] ∧ ∀ e, job = .call e →
        ∃ u : ThreadId, s.office.threads[u]? = some (.enqueuing (.call e) .sending) ∧
          office.threads[u]? = some (.enqueuing (.call e) .releasing) := by
  rcases ho.accepted with hsame | ⟨job, ha, ⟨u, hu, hu'⟩ | hi⟩
  · exact .inl hsame
  · exact .inr ⟨job, ha, fun e he => ⟨u, he ▸ hu, he ▸ hu'⟩⟩
  · exact .inr ⟨job, ha, fun e he => absurd (he ▸ hi) (h.inside e _)⟩

theorem Desk.mem_accepted (h : s.Desk) {office : Scene (Job A)} {m : Worker.Move (Job A)}
    (ho : s.office.Effect office m) {e : Call.Envelope A}
    (he : .call e ∈ office.deeds.accepted) :
    .call e ∈ s.office.deeds.accepted ∨
      ∃ u : ThreadId, s.office.threads[u]? = some (.enqueuing (.call e) .sending) ∧
        office.threads[u]? = some (.enqueuing (.call e) .releasing) := by
  rcases h.accepts ho with hsame | ⟨job, ha, hjob⟩
  · exact .inl (hsame ▸ he)
  · rw [ha, List.mem_append, List.mem_singleton] at he
    exact he.imp_right fun he => hjob e he.symm

theorem Desk.place_aside (h : s.Desk) {m : Worker.Move (Job A)} (ho : s.office.Aside t.office m)
    (hp : s.traffic.parties[i]? = some p) : t.Place i p := by
  have heffect := Scene.effect_of_move ho.move
  have hkept {job : Job A} (hj : job ∈ s.office.deeds.accepted) :
      job ∈ t.office.deeds.accepted := by
    rcases heffect.accepted with hsame | ⟨item, ha, -⟩
    · exact hsame ▸ hj
    · exact ha ▸ List.mem_append_left _ hj
  -- Whoever sends the item of this call is its caller.
  have hsender {u : ThreadId} {pc : EnqueuePc}
      (hu : s.office.threads[u]? = some (.enqueuing (.call ⟨i, p.args⟩) pc)) :
      p.thread = u ∧ p.caller = .handing := by
    obtain ⟨p', hp', hthread, -, hc⟩ := h.handing u _ pc hu
    obtain rfl := Option.some.inj (hp.symm.trans hp')
    exact ⟨hthread, hc⟩
  cases h.places i p hp with
  | handing pc hc hu hiff =>
    have hsent (ha : .call ⟨i, p.args⟩ ∈ t.office.deeds.accepted) : pc = .releasing ∨
        t.office.threads[p.thread]? = some (.enqueuing (.call ⟨i, p.args⟩) .releasing) := by
      rcases h.mem_accepted heffect ha with ha | ⟨u, hu', hu''⟩
      · exact .inl (hiff.mpr ha)
      · exact .inr ((hsender hu').1 ▸ hu'')
    rcases heffect.threads p.thread with hsame | ⟨-, -, hidle, -⟩ | ⟨rfl, x, x', hx, hx', hturn⟩
    · refine .handing pc hc (hsame.trans hu) ⟨fun hpc => hkept (hiff.mp hpc), fun ha => ?_⟩
      rcases hsent ha with hpc | hu'
      · exact hpc
      · exact (Stand.enqueuing.inj (Option.some.inj ((hsame.trans hu).symm.trans hu'))).2
    · rw [hu] at hidle
      cases hidle
    · obtain rfl := Option.some.inj (hu.symm.trans hx)
      rcases hturn.enqueuing rfl with ⟨pc', hpc, rfl⟩ | ⟨rfl, -⟩
      · refine .handing pc' hc hx' ⟨?_, fun ha => ?_⟩
        · rintro rfl
          rcases hturn.sends with ⟨item, -, hitem, ha⟩ | ⟨-, hnot⟩
          · obtain ⟨rfl, -⟩ := Stand.enqueuing.inj hitem
            exact ha ▸ List.mem_append_right _ (.head _)
          · exact absurd rfl (hnot _)
        · rcases hsent ha with hr | hu'
          · exact absurd hr hpc
          · exact (Stand.enqueuing.inj (Option.some.inj (hx'.symm.trans hu'))).2
      · exact absurd hx' (ho.answers _ _ pc rfl hu)
  | letIn hl ha => exact .letIn hl (hkept ha)
  | refused hr ha =>
    refine .refused hr fun ha' => ?_
    rcases h.mem_accepted heffect ha' with ha' | ⟨u, hu, -⟩
    · exact ha ha'
    · rw [(hsender hu).2] at hr
      cases hr

/-- Who hands in something else, closes the worker, looks at it or runs its items leaves the callers
where they are, but for those who go on in their own enqueue. -/
theorem Desk.aside (h : s.Desk) {m : Worker.Move (Job A)} (ho : s.office.Aside t.office m)
    (ht : t.traffic = s.traffic) : t.Desk := by
  have heffect := Scene.effect_of_move ho.move
  refine ⟨fun u e pc hu => ?_, fun e pc hi => ?_, fun i p hp => ?_, fun e he => ?_, ?_⟩
  · rw [ht]
    rcases heffect.threads u with hsame | ⟨operation, rfl, -, hbegin⟩ | ⟨-, x, x', hx, hx', hturn⟩
    · exact h.handing u e pc (hsame ▸ hu)
    · have hstand := Option.some.inj (hbegin.symm.trans hu)
      cases operation with
      | enqueue item =>
        obtain ⟨rfl, -⟩ := Stand.enqueuing.inj hstand
        exact absurd rfl (ho.begins u e)
      | _ => cases hstand
    · obtain ⟨pc', rfl⟩ := hturn.of_enqueuing (Option.some.inj (hx'.symm.trans hu))
      exact h.handing u e pc' hx
  · rcases heffect.inside hi with hidle | hsame | ⟨operation, rfl, hbegin⟩ | ⟨-, x, hx, hturn⟩
    · cases hidle
    · exact h.inside e pc hsame
    · cases operation with
      | enqueue item =>
        obtain ⟨rfl, -⟩ := Stand.enqueuing.inj hbegin
        exact absurd rfl (ho.beginsInside e)
      | _ => cases hbegin
    · obtain ⟨pc', rfl⟩ := hturn.of_enqueuing rfl
      exact h.inside e pc' hx
  · rw [ht] at hp
    exact h.place_aside ho hp
  · rw [ht]
    rcases h.mem_accepted heffect he with he | ⟨u, hu, -⟩
    · exact h.jobs e he
    · obtain ⟨p, hp, -, hargs, -⟩ := h.handing u e _ hu
      exact ⟨p, hp, hargs⟩
  · rcases h.accepts heffect with hsame | ⟨job, ha, hjob⟩
    · exact hsame ▸ h.once
    · rw [ha, List.filterMap_append]
      cases job with
      | posted number =>
        rw [show List.filterMap Job.call? [Job.posted number] = ([] : List (Call.Envelope A)) from
          rfl, List.append_nil]
        exact h.once
      | call e =>
        obtain ⟨u, hu, -⟩ := hjob e rfl
        obtain ⟨-, -, -, -, -, hiff⟩ := h.place_of_handing hu
        refine List.nodup_append.mpr ⟨h.once, by simp [Job.call?], fun a ha b hb => ?_⟩
        obtain ⟨job', hold, hcall⟩ := List.mem_filterMap.mp ha
        obtain rfl : b = e := by simpa [Job.call?] using hb
        rintro rfl
        cases job' with
        | posted number => cases hcall
        | call e' =>
          obtain rfl := Option.some.inj hcall
          cases hiff.mpr hold

theorem Desk.step (h : s.Desk) (hs : s.Step t) : t.Desk := by
  cases hs with
  | call u args bound ho ht => exact h.call ho ht
  | accept u e hu ho hidle ht =>
    exact h.answer hu ho hidle (congrArg Call.Scene.parties (Call.Scene.accept_cases ht))
      (.inl ⟨rfl, rfl⟩)
  | refuse u e pc between hpc hu ho hidle hd hr =>
    obtain ⟨e', -, rfl⟩ := Call.Scene.drop_cases hd
    obtain ⟨-, ht⟩ := Call.Scene.refuse_cases hr
    exact h.answer hu ho hidle (congrArg Call.Scene.parties ht) (.inr ⟨hpc, rfl⟩)
  | take e x ho hd ht =>
    have hcarries := Call.Scene.carries_of_move ht rfl
    cases Scene.effect_of_move ho with
    | take item rest hd' hi heq =>
      refine h.carry (by rw [heq]) (by rw [heq]) (fun y hy => ?_) hcarries
      rw [heq] at hy
      exact .inl (Option.some.inj hy).symm
    | drain worker drain hnone hinside hthread heq =>
      rw [heq] at hd
      rw [show drain = _ from hd] at hinside
      cases hinside
  | ended e pick hd ho ht ha =>
    have hcarries := Call.Scene.carries_of_move ht rfl
    cases Scene.effect_of_move ho with
    | finish item unwound hd' heq =>
      exact h.carry (by rw [heq]) (by rw [heq]) (by rw [heq]; exact nofun) hcarries
  | aside m ho ht => exact h.aside ho ht
  | attempt e x m hd ho ht hm hnot =>
    refine h.carry (by rw [ho]) (by rw [ho]) (fun x hx => .inr (ho ▸ hx)) ?_
    rcases hm with ⟨pick, rfl⟩ | ⟨result, rfl⟩
    · exact Call.Scene.carries_of_move ht rfl
    · exact Call.Scene.carries_of_move ht rfl
  | caller i stray ho ht =>
    exact h.carry (by rw [ho]) (by rw [ho]) (fun x hx => .inr (ho ▸ hx))
      (Call.Scene.carries_of_move ht rfl)
  | tick later ho ht =>
    exact h.carry (by rw [ho]) (by rw [ho]) (fun x hx => .inr (ho ▸ hx))
      (Call.Scene.carries_of_move ht rfl)

theorem Reachable.desk (h : s.Reachable) : s.Desk :=
  CrossCall.Reachable.keeps (fun _ _ _ hs hm => hs.step (step_of_move hm)) h
    fun _ hs => desk_of_isStart hs

end CrossCall.Worker.Callers
