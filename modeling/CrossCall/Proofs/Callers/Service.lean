import CrossCall.Proofs.Call.Progress
import CrossCall.Proofs.Callers.Release
import CrossCall.Proofs.Worker.Counters
import CrossCall.Proofs.Worker.Exit
import Mathlib.Algebra.GroupWithZero.Nat

/-! The worker's thread comes to the end of all that was accepted, however its items end. Between two
items nothing stops it; in a call that it runs, and in what an item does with the worker, it waits
for a lock at most, and whoever holds that lock gives it back by steps of its own. What is left to do
is counted, and every step of the worker's thread makes it less. -/

namespace CrossCall.Call

variable {A V : Type}

/-- How many steps an attempt is from its end, that of the callable counted as one. -/
def TargetStand.toEnd : TargetStand V → Nat
  | .entering .locking => 10
  | .entering .holding => 9
  | .running => 8
  | .concluding _ .locking => 7
  | .concluding _ .holding => 6
  | .delivering _ .storing => 5
  | .delivering _ (.raising .locking) => 4
  | .delivering _ (.raising .adding) => 3
  | .delivering _ (.raising .notifying) => 2
  | .delivering _ .releasing => 1
  | .over _ => 0

theorem TargetStep.toEnd_lt {m : Moment} {c c' : Call V} {stand stand' : TargetStand V}
    (h : TargetStep m c stand c' stand') : stand'.toEnd < stand.toEnd := by
  cases h with
  | raise r pc pc' s hr => cases hr <;> exact Nat.lt_succ_self _
  | raised r pc s hr => cases hr; exact Nat.lt_succ_self _
  | pass | store | lockGate | lock | keep | release => exact Nat.lt_succ_self _
  | skip | discard => exact Nat.succ_pos _

/-- Who holds a lock of the call as its caller holds none after its next step. -/
theorem CallerStep.lets_go {bound : WaitBound} {m : Moment} {c c' : Call V}
    {caller caller' : CallerStand V} (h : CallerStep bound m c caller c' caller')
    (hc : caller.holds ∨ caller.isLooking) :
    caller'.holds = false ∧ caller'.isLooking = false := by
  cases h with
  | wait since pc pc' s hw =>
    cases hw with
    | lock => rcases hc with hc | hc <;> cases hc
    | _ => exact ⟨rfl, rfl⟩
  | waited since pc s signaled hw => exact ⟨rfl, rfl⟩
  | lock since signaled hh => rcases hc with hc | hc <;> cases hc
  | settle since | abandon since => exact ⟨rfl, rfl⟩

namespace Scene

variable {s t : Scene A V} {i k : Nat} {p : Party A V} {a : Attempt A V}

/-- What is left to do of all attempts. -/
def toEnd (s : Scene A V) : Nat := (s.attempts.map (·.stand.toEnd)).sum

theorem toEnd_congr (h : t.attempts = s.attempts) : t.toEnd = s.toEnd := by
  rw [toEnd, toEnd, h]

theorem toEnd_append (h : t.attempts = s.attempts ++ [a]) :
    t.toEnd = s.toEnd + a.stand.toEnd := by
  rw [toEnd, toEnd, h, List.map_append, List.sum_append]
  rfl

theorem toEnd_putAttempt (ha : s.attempts[k]? = some a) (stand : TargetStand V) :
    (s.putAttempt k stand).toEnd + a.stand.toEnd = s.toEnd + stand.toEnd := by
  obtain ⟨before, after, hs, -, hm, -⟩ := exists_sides ha
  simp only [toEnd, putAttempt, hm]
  rw [hs]
  simp only [List.map_append, List.map_cons, List.sum_append, List.sum_cons]
  omega

theorem toEnd_stepAttempt {pick : Nat} (h : s.move (.stepAttempt k pick) = some t) :
    t.toEnd < s.toEnd := by
  cases change_of_move h with
  | stepAttempt _ _ a p call stand ha hp hstep =>
    have hput := toEnd_putAttempt (s := s.putCall a.envelope.call call) ha stand
    have hlt := hstep.toEnd_lt
    rw [toEnd_congr (show (s.putCall a.envelope.call call).attempts = s.attempts from rfl)] at hput
    omega

theorem toEnd_finish {r : Except Payload V} (h : s.move (.finish k r) = some t) :
    t.toEnd < s.toEnd := by
  obtain ⟨a, ha, hrun, rfl⟩ := finish_cases h
  have hput := toEnd_putAttempt ha (.concluding r .locking)
  rw [hrun] at hput
  simp only [TargetStand.toEnd] at hput
  omega

/-- The only attempt at a call can go on, or else the caller holds a lock of the call. -/
theorem Sound.exists_stepAttempt_or_held (h : s.Sound) (hw : s.Awake)
    (ha : s.attempts[k]? = some a) (hp : s.parties[a.envelope.call]? = some p)
    (hs : a.stand.isUnderway) (hone : s.stands a.envelope.call = [a.stand]) (pick : Nat) :
    (∃ t, s.move (.stepAttempt k pick) = some t) ∨ p.caller.holds ∨ p.caller.isLooking := by
  by_cases hhold : p.caller.holds = true
  · exact .inr (.inl hhold)
  by_cases hlook : p.caller.isLooking = true
  · exact .inr (.inr hlook)
  have hlocked := (h.courses _ p hp).locked
  have hsignal := (hw _ p hp).locked
  simp only [course, hone, List.countP_singleton, hhold, Bool.toNat_false, Nat.add_zero] at hlocked
  simp only [course, hone, List.countP_singleton, hlook, Bool.toNat_false, Nat.add_zero] at hsignal
  refine .inl ?_
  rw [move_stepAttempt ha hp]
  refine Option.isSome_iff_exists.mp (isSome_stepAttempt hs ?_ fun r hr => ?_)
  · by_cases hah : a.stand.holds = true
    · exact .inl hah
    · rw [if_neg hah] at hlocked
      exact .inr (Option.isNone_iff_eq_none.mp (by simpa using hlocked.symm))
  · rw [hr] at hsignal
    exact Option.isNone_iff_eq_none.mp (by simpa [TargetStand.isAdding] using hsignal.symm)

/-- A caller who holds a lock of its call gives it back by its next step, and then the only attempt
at the call can go on. -/
theorem Reachable.exists_release (h : s.Reachable) (ha : s.attempts[k]? = some a)
    (hp : s.parties[a.envelope.call]? = some p) (hs : a.stand.isUnderway)
    (hone : s.stands a.envelope.call = [a.stand]) (hc : p.caller.holds ∨ p.caller.isLooking)
    (pick : Nat) :
    ∃ t, s.move (.stepCaller a.envelope.call false) = some t ∧ t.attempts = s.attempts ∧
      ∃ u, t.move (.stepAttempt k pick) = some u := by
  obtain ⟨t, ht⟩ : ∃ t, s.move (.stepCaller a.envelope.call false) = some t := by
    rcases hc with hhold | hlook
    · obtain ⟨since, signaled, hc⟩ := p.caller.exists_of_holds hhold
      exact exists_stepCaller hp hc collectStep_holding_ne
    · obtain ⟨since, deadline, cause, hc⟩ := p.caller.exists_of_isLooking hlook
      exact exists_stepCaller hp hc collectStep_looking_ne
  have htr : t.Reachable := .move _ h ht
  obtain ⟨call, caller, hstep, rfl⟩ := stepCaller_cases ((move_stepCaller hp false).symm.trans ht)
  obtain ⟨hhold, hlook⟩ := hstep.lets_go hc
  refine ⟨_, ht, rfl, ?_⟩
  refine (htr.sound.exists_stepAttempt_or_held htr.awake ha (parties_put hp call caller) hs hone
    pick).resolve_right ?_
  rintro (hc | hc)
  · exact Bool.false_ne_true (hhold.symm.trans hc)
  · exact Bool.false_ne_true (hlook.symm.trans hc)

end Scene
end CrossCall.Call

namespace CrossCall.Worker

variable {ι : Type}

/-- How many turns a thread is from the end of what it does at the worker, but for a join. -/
def Stand.toIdle : Stand ι → Nat
  | .enqueuing _ .locking => 4
  | .enqueuing _ .checking => 3
  | .enqueuing _ .sending => 2
  | .enqueuing _ .rollingBack | .enqueuing _ .releasing => 1
  | .closing .locking | .looking .locking => 2
  | .closing .holding | .looking .holding => 1
  | .reading .pending => 3
  | .reading (.executed _) => 2
  | .reading (.panicked _ _) => 1
  | .idle | .joining _ => 0

namespace Turn

variable {m : Moment} {w w' : Worker ι} {d d' : Deeds ι} {x x' : Stand ι}

/-- On the worker's own thread there is nothing to join. -/
theorem toIdle_lt (h : Turn m w d x w' x' d') (hself : m.self = w.thread)
    (hx : ∀ pc, x ≠ .joining pc) : x'.toIdle < x.toIdle := by
  cases h with
  | close =>
    rw [if_pos hself]
    exact Nat.one_pos
  | lockJoin | takeJoin | leaveJoin | join => exact absurd rfl (hx _)
  | refuse => exact Nat.succ_pos _
  | _ => exact Nat.lt_succ_self _

/-- Who holds the entrance lets go of it, or comes nearer to it. -/
theorem yields (h : Turn m w d x w' x' d') (hx : x.holds) :
    w'.entrance = none ∨ x'.holds ∧ x'.toIdle < x.toIdle := by
  cases h with
  | letIn | send => exact .inr ⟨rfl, Nat.lt_succ_self _⟩
  | fail => exact .inr ⟨rfl, Nat.lt_succ_self _⟩
  | refuse | rollBack | release | close | look => exact .inl rfl
  | _ => cases hx

end Turn

/-- Nothing but the entrance stops a thread that is in no join. -/
theorem Scene.isSome_stepStand {m : Moment} {w : Worker ι} {d : Deeds ι} {x : Stand ι}
    (hx : x ≠ .idle) (hjoin : ∀ pc, x ≠ .joining pc) (hfree : x.holds ∨ w.entrance = none) :
    (stepStand m w d x).isSome := by
  cases x with
  | idle => exact absurd rfl hx
  | joining pc => exact absurd rfl (hjoin pc)
  | enqueuing item pc =>
    cases pc with
    | locking => simp [stepStand, enqueueStep, hfree.resolve_left Bool.false_ne_true]
    | checking => cases ho : w.isOpen <;> simp [stepStand, enqueueStep, ho]
    | sending => cases he : w.ended <;> simp [stepStand, enqueueStep, he]
    | rollingBack | releasing => rfl
  | closing pc =>
    cases pc with
    | locking => simp [stepStand, closeStep, hfree.resolve_left Bool.false_ne_true]
    | holding => rfl
  | looking pc =>
    cases pc with
    | locking => simp [stepStand, lookOpenStep, hfree.resolve_left Bool.false_ne_true]
    | holding => rfl
  | reading pc => cases pc <;> rfl

/-- What is left to do with the item that the worker's thread has taken. -/
def DrainStand.toEnd : DrainStand ι → Nat
  | .running _ inside => 10 + inside.toIdle
  | .charging _ => 2
  | .settling => 1
  | .receiving | .finishing | .over => 0

namespace Callers

variable {A V : Type} {s s₀ t : Callers A V} {u : ThreadId} {Q R : Callers A V → Prop}

/-! ### Ways on -/

/-- A step of the worker's own thread, between two items or in what it runs. -/
def Move.isWorkers : Move A V → Bool
  | .drain | .stepInside | .stepAttempt _ => true
  | _ => false

/-- A step of who holds a lock: the entrance of the worker, or one of a call. -/
inductive Yields (s : Callers A V) : Move A V → Prop where
  | entrance (u : ThreadId) (x : Stand (Job A)) : s.office.threads[u]? = some x → x.holds →
      Yields s (.step u)
  | lock (i : Nat) (p : Call.Party A V) : s.traffic.parties[i]? = some p →
      p.caller.holds ∨ p.caller.isLooking → Yields s (.stepCaller i false)

/-- The worker's thread comes to a state like `Q`: by its own steps and by steps of those who hold a
lock, and in whatever way the items that it runs end. -/
inductive Attains (Q : Callers A V → Prop) : Callers A V → Prop where
  | there {s : Callers A V} : Q s → Attains Q s
  | own {s t : Callers A V} (m : Move A V) : m.isWorkers → s.move m = some t → Attains Q t →
      Attains Q s
  | yields {s t : Callers A V} (m : Move A V) : s.Yields m → s.move m = some t → Attains Q t →
      Attains Q s
  /-- Something posted ends, by itself or by a panic. -/
  | returns {s : Callers A V} (t : Bool → Callers A V) :
      (∀ unwound, s.move (.finish unwound) = some (t unwound)) → (∀ unwound, Attains Q (t unwound)) →
      Attains Q s
  /-- The callable of a call ends, with a value or by a panic. -/
  | callable {s : Callers A V} (t : Except Payload V → Callers A V) :
      (∀ r, s.move (.finishCallable r) = some (t r)) → (∀ r, Attains Q (t r)) → Attains Q s

theorem Attains.bind (h : s.Attains Q) (hQ : ∀ t, Q t → t.Attains R) : s.Attains R := by
  induction h with
  | there hq => exact hQ _ hq
  | own m hm ht _ ih => exact .own m hm ht ih
  | yields m hm ht _ ih => exact .yields m hm ht ih
  | returns t ht _ ih => exact .returns t ht ih
  | callable t ht _ ih => exact .callable t ht ih

theorem Attains.mono (h : s.Attains Q) (hQ : ∀ t, Q t → R t) : s.Attains R :=
  h.bind fun t ht => .there (hQ t ht)

/-! ### Who holds a lock -/

/-- Others have gone on, and the worker's thread is where it was. -/
structure Stays (s t : Callers A V) : Prop where
  later : CrossCall.Reachable move (· = s) t
  drain : t.office.drain = s.office.drain
  started : t.office.deeds.started = s.office.deeds.started
  attempts : t.traffic.attempts = s.traffic.attempts

theorem Stays.refl (s : Callers A V) : s.Stays s := ⟨.refl s, rfl, rfl, rfl⟩

theorem Stays.trans (h : s₀.Stays s) (h' : s.Stays t) : s₀.Stays t :=
  ⟨.trans h.later h'.later, h'.drain.trans h.drain, h'.started.trans h.started,
    h'.attempts.trans h.attempts⟩

theorem stays_of_step (h : s.move (.step u) = some t) : s.Stays t := by
  have hattempts : t.traffic.attempts = s.traffic.attempts := by
    obtain ⟨office, -, h⟩ := Option.bind_eq_some_iff.mp h
    split at h
    · next call accepted _ _ =>
      obtain ⟨traffic, hanswer, h⟩ := Option.bind_eq_some_iff.mp h
      obtain rfl := Option.some.inj h
      cases accepted with
      | true => rw [Call.Scene.accept_cases hanswer]; rfl
      | false =>
        obtain ⟨between, hdrop, hrefuse⟩ := Option.bind_eq_some_iff.mp hanswer
        obtain ⟨e, -, rfl⟩ := Call.Scene.drop_cases hdrop
        rw [(Call.Scene.refuse_cases hrefuse).2]
        rfl
    · rw [← Option.some.inj h]
  cases Scene.effect_of_move (office_of_step h) with
  | step _ x x' w d hx hturn ht =>
    exact ⟨.move _ (.refl s) h, by rw [ht], by rw [ht]; exact hturn.started.1, hattempts⟩

theorem stays_of_stepCaller {i : Nat} (h : s.move (.stepCaller i false) = some t) : s.Stays t := by
  obtain ⟨traffic, hm, heq⟩ := Option.bind_eq_some_iff.mp h
  obtain rfl := Option.some.inj heq
  obtain ⟨call, caller, rfl⟩ := Call.Scene.caller_cases hm
  exact ⟨.move _ (.refl s) h, rfl, rfl, rfl⟩

/-- A thread that holds the entrance can go on. -/
theorem Reachable.exists_step (h : s.Reachable) {x : Stand (Job A)}
    (hu : s.office.threads[u]? = some x) (hx : x.holds) : ∃ t, s.move (.step u) = some t := by
  have hmem : x ∈ s.office.stands := List.mem_append_left _ (List.mem_of_getElem? hu)
  have hsome : (Scene.stepStand ⟨u, 0, false, 0⟩ s.office.worker s.office.deeds x).isSome :=
    Scene.isSome_stepStand (by rintro rfl; cases hx) (by rintro pc rfl; cases hx) (.inl hx)
  obtain ⟨⟨w, x', d⟩, hstep⟩ := Option.isSome_iff_exists.mp hsome
  have ho := Scene.move_step hu hstep
  have hself := getElem?_set_of_some hu x'
  cases hhanding : s.handing u with
  | none => exact ⟨_, move_step_unanswered ho (.inl hhanding)⟩
  | some answer =>
    obtain ⟨e, pc, hu', -⟩ := handing_eq_some.mp hhanding
    obtain rfl := Option.some.inj (hu.symm.trans hu')
    -- On its way a caller has no answer yet; at the end of it the answer is one that it can be given.
    cases Scene.stepStand_cases hstep with
    | lockEnqueue => cases hx
    | letIn item hopen => exact ⟨_, move_step_unanswered ho (.inr (by simp [hself]))⟩
    | send item he => exact ⟨_, move_step_unanswered ho (.inr (by simp [hself]))⟩
    | fail item he => exact ⟨_, move_step_unanswered ho (.inr (by simp [hself]))⟩
    | refuse item hopen =>
      obtain ⟨t, -, ht, -⟩ := h.refuses hopen hu
      exact ⟨t, ht⟩
    | rollBack item => exact absurd rfl (h.office.sound.steady _ hmem _)
    | release item =>
      obtain ⟨p, hp, -, -, hc, -⟩ := h.desk.place_of_handing hu
      have haccept : s.traffic.move (.accept e.call) =
          some (s.traffic.putCaller e.call (.collecting none (.waiting .arriving))) := by
        simp only [Call.Scene.move, hp, Option.map_some, hc]
      exact ⟨_, move_step_answered hu ho hself haccept⟩

/-- A thread that holds the entrance frees it by its own steps. -/
theorem Reachable.attains_of_holds (h : s.Reachable) {x : Stand (Job A)}
    (hu : s.office.threads[u]? = some x) (hx : x.holds) :
    s.Attains fun t => s.Stays t ∧ t.office.worker.entrance = none := by
  induction hn : x.toIdle using Nat.strongRecOn generalizing s x with
  | ind n ih =>
    subst hn
    obtain ⟨t, ht⟩ := h.exists_step hu hx
    refine .yields (.step u) (.entrance u x hu hx) ht ?_
    have hstays := stays_of_step ht
    cases Scene.effect_of_move (office_of_step ht) with
    | step _ y x' w d hy hturn heq =>
      obtain rfl := Option.some.inj (hu.symm.trans hy)
      have hx' : t.office.threads[u]? = some x' := by
        rw [heq]
        exact getElem?_set_of_some hu x'
      rcases hturn.yields hx with hfree | ⟨hhold, hlt⟩
      · exact .there ⟨hstays, by rw [heq]; exact hfree⟩
      · refine (ih _ hlt (.move _ h ht) hx' hhold rfl).mono fun v hv => ?_
        exact ⟨hstays.trans hv.1, hv.2⟩

/-- Where the entrance is taken, but not by the item that runs, it is freed. -/
theorem Reachable.attains_free (h : s.Reachable)
    (hinside : ∀ x, s.office.drain.inside = some x → x.holds = false) :
    s.Attains fun t => s.Stays t ∧ t.office.worker.entrance = none := by
  by_cases hfree : s.office.worker.entrance = none
  · exact .there ⟨.refl s, hfree⟩
  have hlocked := h.office.sound.locked
  rw [Option.isSome_iff_ne_none.mpr hfree, Bool.toNat_true] at hlocked
  obtain ⟨x, hm, hx⟩ := List.countP_pos_iff.mp (Nat.lt_of_lt_of_eq Nat.one_pos hlocked.symm)
  rcases List.mem_append.mp hm with hm | hm
  · obtain ⟨u, hu⟩ := List.mem_iff_getElem?.mp hm
    exact h.attains_of_holds hu hx
  · exact absurd hx (by rw [hinside x (Option.mem_toList.mp hm)]; exact Bool.false_ne_true)

/-- Where the caller has a lock of the call that the worker runs, it gives it back. -/
theorem Reachable.attains_attempt (h : s.Reachable) {k : Nat} {a : Call.Attempt A V}
    (ha : s.traffic.attempts[k]? = some a) (hs : a.stand.isUnderway) :
    s.Attains fun t => s.Stays t ∧ ∃ traffic, t.traffic.move (.stepAttempt k 0) = some traffic := by
  obtain ⟨p, hp, -⟩ := h.desk.jobs a.envelope (h.accepted_of_attempt (List.mem_of_getElem? ha))
  have hone := h.stands_of_attempt ha
  rcases h.traffic.sound.exists_stepAttempt_or_held h.traffic.awake ha hp hs hone 0 with hstep | hc
  · exact .there ⟨.refl s, hstep⟩
  · obtain ⟨traffic, ht, -, hstep⟩ := h.traffic.exists_release ha hp hs hone hc 0
    have hmove : s.move (.stepCaller a.envelope.call false) = some { s with traffic } := by
      simp only [move, ht, bind, Option.bind]
    exact .yields _ (.lock _ p hp hc) hmove (.there ⟨stays_of_stepCaller hmove, hstep⟩)

/-! ### The worker's own steps -/

/-- What is left to do until `n` items have been run. -/
def toServe (n : Nat) (s : Callers A V) : Nat :=
  100 * (n - s.office.deeds.started.length) + s.office.drain.toEnd + s.traffic.toEnd

theorem Stays.toServe (h : s.Stays t) (n : Nat) : t.toServe n = s.toServe n := by
  rw [Callers.toServe, Callers.toServe, h.started, h.drain, Call.Scene.toEnd_congr h.attempts]

/-- Where this much is left to do, the worker's thread leaves less to do. -/
def AttainsLess (n : Nat) (s : Callers A V) : Prop :=
  s.Attains fun t => CrossCall.Reachable move (· = s) t ∧ t.toServe n < s.toServe n

theorem attainsLess_of_own {n : Nat} {m : Move A V} (hm : m.isWorkers) (ht : s.move m = some t)
    (hlt : t.toServe n < s.toServe n) : s.AttainsLess n :=
  .own m hm ht (.there ⟨.move m (.refl s) ht, hlt⟩)

theorem Stays.attainsLess {n : Nat} (h : s.Stays t) (ht : t.AttainsLess n) :
    t.Attains fun u => CrossCall.Reachable move (· = s) u ∧ u.toServe n < s.toServe n :=
  ht.mono fun _ hu => ⟨.trans h.later hu.1, h.toServe n ▸ hu.2⟩

/-- The item of a call that waits at the worker waits in the queue of the calls. -/
theorem Reachable.item_of_queued (h : s.Reachable) {e : Call.Envelope A}
    (he : .call e ∈ s.office.worker.items) : s.itemOf e.call < s.traffic.items.length := by
  have haccepted : .call e ∈ s.office.deeds.accepted :=
    h.office.sound.fifo ▸ List.mem_append_right _ he
  obtain ⟨p, hp, hargs⟩ := h.desk.jobs e haccepted
  have hone := h.kept_of_accepted haccepted
  obtain ⟨e', he', hcall⟩ := List.countP_pos_iff.mp (hone ▸ Nat.one_pos)
  have hcall : e'.call = e.call := of_decide_eq_true hcall
  rw [itemOf, List.findIdx_lt_length]
  rcases List.mem_append.mp he' with hitem | htaken
  · exact ⟨e', hitem, decide_eq_true hcall⟩
  · -- It would have been taken before, and no call is accepted twice.
    have hfaithful := h.traffic.sound.faithful e' he'
    rw [hcall, hp, Option.map_some, Option.some.injEq, hargs] at hfaithful
    obtain rfl : e' = e := by
      obtain ⟨call, args⟩ := e
      obtain ⟨call', args'⟩ := e'
      obtain rfl : call' = call := hcall
      obtain rfl : args = args' := hfaithful
      rfl
    have honce := h.desk.once
    rw [h.office.sound.fifo, List.filterMap_append, ← h.books.order] at honce
    refine absurd rfl ((List.nodup_append.mp honce).2.2 e' htaken e' ?_)
    exact List.mem_filterMap.mpr ⟨_, he, rfl⟩

theorem move_drain {office : Scene (Job A)} (ho : s.office.move .drain = some office)
    (hnot : ∀ e x, office.drain ≠ .running (.call e) x) : s.move .drain = some { s with office } := by
  simp only [move, ho, bind, Option.bind]

theorem move_drain_call {office : Scene (Job A)} {e : Call.Envelope A} {x : Stand (Job A)}
    {traffic : Call.Scene A V} (ho : s.office.move .drain = some office)
    (hd : office.drain = .running (.call e) x)
    (ht : s.traffic.move (.take office.worker.thread (s.itemOf e.call) false) = some traffic) :
    s.move .drain = some ⟨office, traffic⟩ := by
  simp only [move, ho, hd, ht, bind, Option.bind]

/-- The step with which the attempt at the call that the worker runs is over. -/
theorem move_stepAttempt_over {pick : Nat} {office : Scene (Job A)} {traffic : Call.Scene A V}
    (hruns : s.runsCall) (ht : s.traffic.move (.stepAttempt s.attempt pick) = some traffic)
    (hover : traffic.attempts[s.attempt]?.any (·.stand.isOver))
    (ho : s.office.move (.finish false) = some office) :
    s.move (.stepAttempt pick) = some ⟨office, traffic⟩ := by
  simp only [move, hruns, ht, hover, ho, bind, Option.bind, Bool.not_true, Bool.false_eq_true,
    if_false, if_true]

theorem Reachable.attainsLess_of_receiving (h : s.Reachable) {n : Nat}
    (hd : s.office.drain = .receiving) (hlt : s.office.deeds.started.length < n)
    (hi : s.office.worker.items ≠ []) : s.AttainsLess n := by
  obtain ⟨job, rest, hi⟩ := List.exists_cons_of_ne_nil hi
  have ho : s.office.move .drain = some { s.office with
      worker := { s.office.worker with items := rest }
      drain := .running job .idle
      deeds := { s.office.deeds with started := s.office.deeds.started ++ [job] } } := by
    simp only [Scene.move, Scene.stepDrain, hd, receive, hi]
  cases job with
  | posted number =>
    refine attainsLess_of_own rfl (move_drain ho fun e x heq => by cases heq) ?_
    simp only [toServe, hd, DrainStand.toEnd, Stand.toIdle, List.length_append,
      List.length_singleton]
    omega
  | call e =>
    have hitem := h.item_of_queued (e := e) (by rw [hi]; exact .head rest)
    have htake : s.traffic.move (.take s.office.worker.thread (s.itemOf e.call) false) =
        some { s.traffic with
          items := s.traffic.items.eraseIdx (s.itemOf e.call)
          attempts := s.traffic.attempts ++
            [{ thread := s.office.worker.thread, envelope := s.traffic.items[s.itemOf e.call] }] } := by
      simp [Call.Scene.move, List.getElem?_eq_getElem hitem]
    refine attainsLess_of_own rfl (move_drain_call ho rfl htake) ?_
    simp only [toServe, hd, DrainStand.toEnd, Stand.toIdle, List.length_append,
      List.length_singleton]
    rw [Call.Scene.toEnd_append (s := s.traffic) rfl, Call.TargetStand.toEnd]
    omega

theorem Reachable.attainsLess_of_inside (h : s.Reachable) {n : Nat} {job : Job A}
    {x : Stand (Job A)} (hd : s.office.drain = .running job x) (hx : x ≠ .idle) :
    s.AttainsLess n := by
  have hjoin (pc : JoinPc) : x ≠ .joining pc := by
    rintro rfl
    exact h.office.separate.inside pc (by rw [hd]; rfl)
  have hturn {s : Callers A V} (hd : s.office.drain = .running job x)
      (hfree : x.holds ∨ s.office.worker.entrance = none) : s.AttainsLess n := by
    obtain ⟨⟨w, x', d⟩, hstep⟩ := Option.isSome_iff_exists.mp
      (Scene.isSome_stepStand (m := ⟨s.office.worker.thread, 0, false, 0⟩)
        (d := s.office.deeds) hx hjoin hfree)
    have ht : s.move .stepInside = some { s with office := { s.office with
        worker := w, drain := .running job x', deeds := d } } := by
      simp only [move, Scene.move, hd, hstep, bind, Option.bind]
    have hturn := Scene.stepStand_cases hstep
    refine attainsLess_of_own rfl ht ?_
    have hlt := hturn.toIdle_lt rfl hjoin
    simp only [toServe, hd, DrainStand.toEnd, hturn.started.1]
    omega
  by_cases hhold : x.holds = true
  · exact hturn hd (.inl hhold)
  · refine (h.attains_free fun y hy => ?_).bind fun t ht =>
      ht.1.attainsLess (hturn (ht.1.drain.trans hd) (.inr ht.2))
    rw [hd] at hy
    obtain rfl := Option.some.inj hy
    exact Bool.eq_false_iff.mpr hhold

theorem attainsLess_of_posted {n number : Nat}
    (hd : s.office.drain = .running (.posted number) .idle) : s.AttainsLess n := by
  have ht (unwound : Bool) : s.move (.finish unwound) = some { s with office := { s.office with
      drain := .charging unwound
      deeds := { s.office.deeds with
        ended := s.office.deeds.ended ++ [(.posted number, unwound)] } } } := by
    simp only [move, runsCall, Scene.move, hd, bind, Option.bind, Bool.false_eq_true, if_false]
  refine .returns _ ht fun unwound => .there ⟨.move _ (.refl s) (ht unwound), ?_⟩
  simp only [toServe, hd, DrainStand.toEnd]
  omega

theorem Reachable.attainsLess_of_call (h : s.Reachable) {n : Nat} {e : Call.Envelope A}
    (hd : s.office.drain = .running (.call e) .idle) : s.AttainsLess n := by
  obtain ⟨done, a, hattempts, hlast, -, hnot, -⟩ := h.books.running hd
  have ha : s.traffic.attempts[s.attempt]? = some a := by
    rw [hattempts, hlast, List.getElem?_concat_length]
  by_cases hs : a.stand.isUnderway = true
  · refine (h.attains_attempt ha hs).bind fun t ht => ht.1.attainsLess ?_
    obtain ⟨hstays, traffic, hstep⟩ := ht
    have hd' : t.office.drain = .running (.call e) .idle := hstays.drain.trans hd
    have hlast : s.attempt = t.attempt := by rw [attempt, attempt, hstays.attempts]
    have hruns : t.runsCall = true := runsCall_eq_true.mpr ⟨e, _, hd'⟩
    have hlt := Call.Scene.toEnd_stepAttempt hstep
    rw [hlast] at hstep
    by_cases hover : traffic.attempts[t.attempt]?.any (·.stand.isOver) = true
    · have hfinish : t.office.move (.finish false) = some { t.office with
          drain := .charging false
          deeds := { t.office.deeds with ended := t.office.deeds.ended ++ [(.call e, false)] } } := by
        simp only [Scene.move, hd']
      refine attainsLess_of_own rfl (move_stepAttempt_over hruns hstep hover hfinish) ?_
      simp only [toServe, hd', DrainStand.toEnd]
      omega
    · have hmove : t.move (.stepAttempt 0) = some { t with traffic } := by
        simp only [move, hruns, hstep, bind, Option.bind, Bool.not_true, Bool.false_eq_true,
          if_false]
        rw [if_neg hover]
      refine attainsLess_of_own rfl hmove ?_
      simp only [toServe]
      omega
  · have hrun : a.stand = .running :=
      (Call.TargetStand.running_or_over hs).resolve_right hnot
    have hfinish (r : Except Payload V) : s.traffic.move (.finish s.attempt r) =
        some (s.traffic.putAttempt s.attempt (.concluding r .locking)) := by
      simp only [Call.Scene.move, ha, Option.map_some, hrun]
    have ht (r : Except Payload V) : s.move (.finishCallable r) =
        some { s with traffic := s.traffic.putAttempt s.attempt (.concluding r .locking) } := by
      simp only [move, hd, hfinish, bind, Option.bind]
    refine .callable _ ht fun r => .there ⟨.move _ (.refl s) (ht r), ?_⟩
    have hlt := Call.Scene.toEnd_finish (hfinish r)
    simp only [toServe]
    omega

/-- What is left to be run of `n` accepted items is run, or less of it is left. -/
theorem Reachable.attainsLess_or_served (h : s.Reachable) {n : Nat}
    (hn : n ≤ s.office.deeds.accepted.length) :
    s.AttainsLess n ∨ n ≤ s.office.deeds.ended.length ∧ s.office.drain.isBusy = false := by
  have hfifo := congrArg List.length h.office.sound.fifo
  have hturns := congrArg List.length h.office.sound.turns
  rw [List.length_append] at hfifo hturns
  rw [List.length_map] at hturns
  cases hd : s.office.drain with
  | receiving =>
    rw [hd] at hturns
    simp only [DrainStand.item?, Option.toList, List.length_nil] at hturns
    by_cases hle : n ≤ s.office.deeds.started.length
    · exact .inr ⟨by omega, rfl⟩
    · refine .inl (h.attainsLess_of_receiving hd (Nat.lt_of_not_le hle) fun hnil => ?_)
      rw [hnil, List.length_nil] at hfifo
      omega
  | running job x =>
    by_cases hx : x = .idle
    · subst hx
      cases job with
      | posted number => exact .inl (attainsLess_of_posted hd)
      | call e => exact .inl (h.attainsLess_of_call hd)
    · exact .inl (h.attainsLess_of_inside hd hx)
  | charging unwound =>
    have ho : s.office.move .drain = some { s.office with
        worker := s.office.worker.charge unwound, drain := .settling } := by
      simp only [Scene.move, Scene.stepDrain, hd]
    refine .inl (attainsLess_of_own rfl (move_drain ho fun e x heq => by cases heq) ?_)
    simp only [toServe, hd, DrainStand.toEnd]
    omega
  | settling =>
    have ho : s.office.move .drain = some { s.office with
        worker := s.office.worker.settle, drain := .receiving } := by
      simp only [Scene.move, Scene.stepDrain, hd]
    refine .inl (attainsLess_of_own rfl (move_drain ho fun e x heq => by cases heq) ?_)
    simp only [toServe, hd, DrainStand.toEnd]
    omega
  | finishing | «over» =>
    have hitems := (h.office.sound.left (by rw [hd]; rfl)).2
    rw [hitems, List.length_nil] at hfifo
    rw [hd] at hturns
    simp only [DrainStand.item?, Option.toList, List.length_nil] at hturns
    exact .inr ⟨by omega, rfl⟩

/-- All that is accepted by now has ended, and the worker's thread is between two items or gone. -/
def HasServed (s t : Callers A V) : Prop :=
  s.office.deeds.accepted <+: t.office.deeds.ended.map Prod.fst ∧ t.office.drain.isBusy = false

theorem Reachable.ended_prefix (h : s.Reachable) :
    s.office.deeds.ended.map Prod.fst <+: s.office.deeds.accepted := by
  rw [h.office.sound.fifo, h.office.sound.turns, List.append_assoc]
  exact List.prefix_append _ _

theorem Reachable.attains_hasServed (h : s.Reachable) : s.Attains s.HasServed := by
  suffices key : ∀ t, CrossCall.Reachable move (· = s) t → t.Attains s.HasServed from
    key s (.refl s)
  intro t hst
  -- By what is left to do; what is accepted meanwhile does not count.
  induction hn : t.toServe s.office.deeds.accepted.length using Nat.strongRecOn generalizing t with
  | ind n ih =>
    subst hn
    have htr : t.Reachable := .trans h hst
    have hgrown := (Scene.grows_run (office_reachable hst)).1
    rcases htr.attainsLess_or_served hgrown.length_le with hless | ⟨hended, hbusy⟩
    · exact hless.bind fun v hv => ih _ hv.2 v (.trans hst hv.1) rfl
    · refine .there ⟨?_, hbusy⟩
      exact List.prefix_of_prefix_length_le hgrown htr.ended_prefix (by rwa [List.length_map])

end Callers
end CrossCall.Worker
