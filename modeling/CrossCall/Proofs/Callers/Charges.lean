import CrossCall.Proofs.Call.Timeouts
import CrossCall.Proofs.Callers.Service
import CrossCall.Proofs.Script.Draining
import CrossCall.Proofs.Worker.Balance

/-! Where a panic goes. A panic of what was posted ends in the worker's turn, which counts it. A panic
of a callable does not come that far: it ends in the item of its call, which then counts as returned
like the item of every other call, and the caller is told of it, unless the caller has stopped
waiting. -/

namespace CrossCall.Call

variable {A V : Type} {r : Except Payload V}

/-- It is settled what becomes of the end `r` of the callable. -/
inductive TargetStand.Concluded (r : Except Payload V) : TargetStand V → Prop where
  | delivering (pc : DeliverPc) : Concluded r (.delivering r pc)
  | ended : Concluded r (.over (some r))

theorem TargetStand.Concluded.not_isEntering {stand : TargetStand V} (h : stand.Concluded r) :
    ¬ stand.isEntering := by
  cases h <;> exact Bool.false_ne_true

/-- With the lock taken it is settled whether the outcome is stored: it is, unless the call was given
up. -/
theorem TargetStep.concludes {m : Moment} {c c' : Call V} {stand stand' : TargetStand V}
    (h : TargetStep m c stand c' stand') (hs : ¬ stand.Concluded r) (hs' : stand'.Concluded r) :
    stand = .concluding r .holding ∧
      (stand' = .delivering r .storing ↔ c.phase ≠ .abandoned) := by
  cases hs' with
  | delivering pc =>
    cases h with
    | keep _ hne => exact ⟨rfl, fun _ => hne, fun _ => rfl⟩
    | store | raise | raised => exact absurd (.delivering _) hs
  | ended =>
    cases h with
    | discard _ ha => exact ⟨rfl, fun hd => (by cases hd), fun hne => absurd ha hne⟩
    | release => exact absurd (.delivering _) hs

theorem reports_error_iff {outcome : Except InvokeError V} {payload : Payload} :
    Reports outcome (.error payload) ↔ outcome = .error (.panicked payload.message) := by
  constructor
  · rintro ⟨⟩
    rfl
  · rintro rfl
    exact .panic payload

namespace Scene

variable {s t : Scene A V} {i k : Nat} {a : Attempt A V} {p : Party A V}

theorem Onward.concludes {stand : TargetStand V} (h : s.Onward a stand)
    (hs : ¬ a.stand.Concluded r) (hs' : stand.Concluded r) : a.stand = .concluding r .holding ∧
      ∃ p, s.parties[a.envelope.call]? = some p ∧
        (stand = .delivering r .storing ↔ p.call.phase ≠ .abandoned) := by
  cases h with
  | rest => exact absurd hs' hs
  | step m p call stand hp hstep =>
    obtain ⟨hhold, hiff⟩ := hstep.concludes hs hs'
    exact ⟨hhold, p, hp, hiff⟩
  | finish r' hrun => cases hs'

/-- An attempt that is over stays as it is. -/
theorem Reachable.stays_over {result : Option (Except Payload V)}
    (ht : CrossCall.Reachable move (· = s) t) (ha : s.attempts[k]? = some a)
    (hs : a.stand = .over result) :
    ∃ b, t.attempts[k]? = some b ∧ b.envelope = a.envelope ∧ b.stand = .over result := by
  refine CrossCall.Reachable.keeps (P := fun t => ∃ b, t.attempts[k]? = some b ∧
    b.envelope = a.envelope ∧ b.stand = .over result) ?_ ht fun _ hst => hst ▸ ⟨a, ha, rfl, hs⟩
  rintro u m v ⟨b, hb, henvelope, hbs⟩ hm
  obtain ⟨c, hc, -, henvelope', honward⟩ := onward_of_move hm hb
  refine ⟨c, hc, henvelope'.trans henvelope, ?_⟩
  generalize c.stand = stand at honward
  cases honward with
  | rest => exact hbs
  | step m p call stand hp hstep => exact absurd (by rw [hbs]; rfl) hstep.not_over
  | finish r hrun => rw [hbs] at hrun; cases hrun

theorem hasAbandoned_iff (hp : s.parties[i]? = some p) :
    s.HasAbandoned i ↔ p.call.phase = .abandoned := by
  constructor
  · rintro ⟨q, hq, hphase⟩
    exact Option.some.inj (hp.symm.trans hq) ▸ hphase
  · exact fun hphase => ⟨p, hp, hphase⟩

/-- Who has given the call up in its phase has given up waiting. -/
theorem Sound.hasGivenUp (h : s.Sound) (ha : s.HasAbandoned i) : s.HasGivenUp i := by
  obtain ⟨p, hp, hphase⟩ := ha
  exact hasGivenUp_of_returned hp ((h.courses i p hp).stage.returned_of_abandoned hphase)

/-- Who has been let in and steps alone stays let in. -/
theorem wasLetIn_of_steps {n : Nat} (ht : afterMoves move s (List.replicate n (.stepCaller i false)) =
    some t) (hp : s.parties[i]? = some p) (hin : p.caller.wasLetIn) :
    ∃ q, t.parties[i]? = some q ∧ q.caller.wasLetIn := by
  induction n generalizing s p with
  | zero => exact ⟨p, Option.some.inj ht ▸ hp, hin⟩
  | succ n ih =>
    obtain ⟨u, hm, hu⟩ := Option.bind_eq_some_iff.mp ht
    obtain ⟨q, hq, -, -, hkept⟩ := (carries_of_move hm rfl).2 i p hp
    exact ih hu hq (hkept.elim (fun hsame => hsame ▸ hin) And.right)

/-- A call that was let in and run, and that its caller has not given up, needs nothing more but the
caller's own steps to return what the run came to. -/
theorem Reachable.comesBack_answered (h : s.Reachable) (hp : s.parties[i]? = some p)
    (hin : p.caller.wasLetIn) (hover : ∀ stand ∈ s.stands i, stand.isOver)
    (ha : s.attempts[k]? = some a) (hi : a.envelope.call = i) (hs : a.stand = .over (some r))
    (hnot : ¬ s.HasGivenUp i) :
    ∃ n t q outcome, afterMoves move s (List.replicate n (.stepCaller i false)) = some t ∧
      t.parties[i]? = some q ∧ q.caller = .returned outcome ∧ Reports outcome r := by
  have hc : p.caller ≠ .handing := by
    intro hc
    rw [hc] at hin
    cases hin
  have hsome : s.stands i ≠ [] := List.ne_nil_of_mem (mem_stands ha hi)
  obtain ⟨n, t, q, outcome, ht, hq, hq'⟩ := (h.sound.attended h.awake hp hover hsome).comesBack hc
  refine ⟨n, t, q, outcome, ht, hq, hq', ?_⟩
  have htr : t.Reachable := .trans h (.of_afterMoves ht)
  obtain ⟨b, hb, henvelope, hbs⟩ := Reachable.stays_over (.of_afterMoves ht) ha hs
  have hmem : .over (some r) ∈ (t.course i q).stands.filter TargetStand.hasStarted :=
    List.mem_filter.mpr ⟨hbs ▸ mem_stands hb (henvelope ▸ hi), rfl⟩
  have hstage := (htr.sound.courses i q hq).stage
  rw [show (t.course i q).caller = _ from hq'] at hstage
  rcases hstage.cases_of_returned with ⟨r', hreports, hruns⟩ | rfl | ⟨e, rfl⟩
  · rw [hruns] at hmem
    obtain rfl := Option.some.inj (TargetStand.over.inj (List.mem_singleton.mp hmem))
    exact hreports
  · have hraised : s.HasRaised i := ⟨k, a, r, ha, hi, hs ▸ .ended⟩
    exact absurd (hasGivenUp_of_returned hq hq')
      (h.never_gives_up hraised hnot (.of_afterMoves ht))
  · obtain ⟨q₁, hq₁, hin'⟩ := wasLetIn_of_steps ht hp hin
    obtain rfl := Option.some.inj (hq.symm.trans hq₁)
    rw [hq'] at hin'
    cases hin'

end Scene
end CrossCall.Call

namespace CrossCall.Worker

variable {A V : Type}

/-- How many of these items were posted and ended in this way. -/
def countPosted (ended : List (Job A × Bool)) (unwound : Bool) : Nat :=
  ended.countP fun x => x.1.call?.isNone && x.2 == unwound

theorem countPosted_cons (job : Job A) (how unwound : Bool) (rest : List (Job A × Bool)) :
    countPosted ((job, how) :: rest) unwound =
      countPosted rest unwound + if job.call?.isNone && how == unwound then 1 else 0 :=
  List.countP_cons

/-- Where no item of a call has unwound, all that has is posted. -/
theorem count_ended {ended : List (Job A × Bool)}
    (hcalls : ∀ e unwound, (.call e, unwound) ∈ ended → unwound = false) :
    (ended.map Prod.snd).count true = countPosted ended true ∧
      (ended.map Prod.snd).count false =
        countPosted ended false + ((ended.map Prod.fst).filterMap Job.call?).length := by
  induction ended with
  | nil => exact ⟨rfl, rfl⟩
  | cons x rest ih =>
    obtain ⟨hpanicked, hreturned⟩ := ih fun e unwound he => hcalls e unwound (.tail x he)
    obtain ⟨job, unwound⟩ := x
    simp only [List.map_cons, List.count_cons, hpanicked, hreturned, countPosted_cons]
    cases job with
    | posted number =>
      rw [List.filterMap_cons_none rfl]
      cases unwound <;> exact ⟨rfl, Nat.add_right_comm _ _ _⟩
    | call e =>
      obtain rfl := hcalls e unwound (.head rest)
      rw [List.filterMap_cons_some (show Job.call? (.call e) = some e from rfl)]
      exact ⟨rfl, rfl⟩

namespace Callers

variable {s s₀ t : Callers A V} {ms : List (Move A V)} {i k : Nat} {a : Call.Attempt A V}
  {p : Call.Party A V} {r : Except Payload V}

theorem ComesBack.mono {may : Move A V → Prop} {told told' : Except InvokeError V → Prop}
    (h : s.ComesBack i may told) (htold : ∀ outcome, told outcome → told' outcome) :
    s.ComesBack i may told' := by
  obtain ⟨ns, t, p, outcome, ht, hns, hp, hc, ho⟩ := h
  exact ⟨ns, t, p, outcome, ht, hns, hp, hc, htold outcome ho⟩

/-! ### The counters -/

/-- The item of a call never unwinds. -/
theorem Reachable.ended_call (h : s.Reachable) :
    ∀ e unwound, (.call e, unwound) ∈ s.office.deeds.ended → unwound = false := by
  refine CrossCall.Reachable.keeps (P := fun s => ∀ e unwound,
    (.call e, unwound) ∈ s.office.deeds.ended → unwound = false) ?_ h fun s hs e unwound he => ?_
  · intro s m t hs hm
    have hoffice {m : Worker.Move (Job A)} (ho : s.office.move m = some t.office)
        (hends : ∀ unwound e x, m = .finish unwound → s.office.drain = .running (.call e) x →
          unwound = false) :
        ∀ e unwound, (.call e, unwound) ∈ t.office.deeds.ended → unwound = false := by
      intro e unwound he
      rcases (Scene.effect_of_move ho).ended with hsame | ⟨item, unwound', rfl, hd, hnew⟩
      · exact hs e unwound (hsame ▸ he)
      · rw [hnew] at he
        rcases List.mem_append.mp he with he | he
        · exact hs e unwound he
        · obtain ⟨rfl, rfl⟩ := Prod.mk.inj (List.mem_singleton.mp he)
          exact hends unwound e _ rfl hd
    cases step_of_move hm with
    | call u args bound ho | accept u e hu ho | refuse u e pc between hpc hu ho | take e x ho =>
      exact hoffice ho nofun
    | ended e pick hd ho => exact hoffice ho fun unwound e x hf _ => (Worker.Move.finish.inj hf).symm
    | aside m ho =>
      exact hoffice ho.move fun unwound e x hf hd => absurd hd (ho.ends unwound e x hf)
    | attempt e x m hd ho | caller i stray ho | tick later ho => exact ho ▸ hs
  · rw [hs.1.2.2.2] at he
    cases he

/-- The counters when all that was accepted has been run. -/
theorem Reachable.counters_of_hasServed (h : s.Reachable) (hserved : s.HasServed s) :
    s.office.worker.panicked = .ofNat (countPosted s.office.deeds.ended true) ∧
      s.office.worker.executed =
        .ofNat (countPosted s.office.deeds.ended false + s.acceptedCalls.length) ∧
      (s.office.deeds.accepted.length < UInt64.size →
        s.office.worker.panicked.toNat = countPosted s.office.deeds.ended true ∧
          s.office.worker.executed.toNat =
            countPosted s.office.deeds.ended false + s.acceptedCalls.length) := by
  obtain ⟨hall, hbusy⟩ := hserved
  have hended : s.office.deeds.ended.map Prod.fst = s.office.deeds.accepted :=
    h.ended_prefix.eq_of_length_le hall.length_le
  have huncharged : s.office.drain.uncharged? = none := by
    cases hd : s.office.drain <;> first | rfl | (rw [hd] at hbusy; cases hbusy)
  obtain ⟨hunwound, hreturned⟩ := count_ended h.ended_call
  rw [hended] at hreturned
  have hcharged := h.office.charged huncharged
  refine ⟨(hcharged true).trans (congrArg _ hunwound), (hcharged false).trans (congrArg _ hreturned),
    fun hlt => ?_⟩
  have hexact := h.office.toNat_charged huncharged hlt
  exact ⟨(hexact true).trans hunwound, (hexact false).trans hreturned⟩

/-! ### What the caller is told -/

/-- In the run of these moves the worker stands in state `u` at the end `r` of the callable of attempt
`k`, with the lock taken, and settles what becomes of it by the move to `v`. -/
def AtConclusion (s₀ : Callers A V) (ms : List (Move A V)) (k : Nat) (r : Except Payload V)
    (u v : Callers A V) : Prop :=
  ∃ before m after a b, ms = before ++ m :: after ∧ afterMoves move s₀ before = some u ∧
    u.move m = some v ∧ u.traffic.attempts[k]? = some a ∧ a.stand = .concluding r .holding ∧
    v.traffic.attempts[k]? = some b ∧ b.stand.Concluded r

/-- The worker is about to store the outcome of attempt `k`. -/
def IsStoring (v : Callers A V) (k : Nat) (r : Except Payload V) : Prop :=
  ∃ b, v.traffic.attempts[k]? = some b ∧ b.stand = .delivering r .storing

/-- At some point of the run of these moves the wait of caller `i` has ended without a permit. -/
def MissesWait (s₀ : Callers A V) (ms : List (Move A V)) (i : Nat) : Prop :=
  ∃ before after u p, ms = before ++ after ∧ afterMoves move s₀ before = some u ∧
    u.traffic.parties[i]? = some p ∧ p.caller.hasMissed

theorem exists_conclusion (h₀ : s₀.isStart) (hs : afterMoves move s₀ ms = some s)
    (ha : s.traffic.attempts[k]? = some a) (hstand : a.stand.Concluded r) :
    ∃ u v, s₀.AtConclusion ms k r u v ∧ CrossCall.Reachable move (· = u) s ∧
      (v.IsStoring k r ↔ ¬ u.traffic.HasAbandoned a.envelope.call) := by
  have hstart : ¬ ∃ a, s₀.traffic.attempts[k]? = some a ∧ a.stand.Concluded r := by
    rintro ⟨a, ha, -⟩
    rw [h₀.2.1.2.2] at ha
    cases ha
  obtain ⟨before, m, after, u, v, hms, hu, hm, hv, hnot, b, hb, hbs⟩ :=
    exists_turn (P := fun s => ∃ a, s.traffic.attempts[k]? = some a ∧ a.stand.Concluded r) hs
      hstart ⟨a, ha, hstand⟩
  have hur : u.Reachable := .trans (.start h₀) (.of_afterMoves hu)
  have hpast : ¬ b.stand.isEntering := hbs.not_isEntering
  obtain ⟨c, hc, he, honward⟩ := (step_of_move hm).back hur hb hpast
  obtain ⟨hhold, p, hp, hiff⟩ := honward.concludes (fun hcs => hnot ⟨c, hc, hcs⟩) hbs
  obtain ⟨a', ha', -, he'⟩ :=
    Call.Scene.Reachable.attempt (traffic_reachable (.of_afterMoves hv)) hb
  obtain rfl := Option.some.inj (ha.symm.trans ha')
  refine ⟨u, v, ⟨before, m, after, c, b, hms, hu, hm, hc, hhold, hb, hbs⟩,
    .trans (.move m (.refl u) hm) (.of_afterMoves hv), ?_⟩
  rw [he', he, Call.Scene.hasAbandoned_iff hp, ← ne_eq, ← hiff]
  constructor
  · rintro ⟨b', hb', hstoring⟩
    exact Option.some.inj (hb.symm.trans hb') ▸ hstoring
  · exact fun hstoring => ⟨b, hb, hstoring⟩

theorem Step.misses (hr : s.Reachable) (h : s.Step t) (hnot : ¬ s.traffic.HasGivenUp i)
    (hgiven : t.traffic.HasGivenUp i) :
    ∃ q, t.traffic.parties[i]? = some q ∧ q.caller.hasMissed := by
  rcases h.last_move with hsame | ⟨u, m, hu, hparties, hm⟩
  · exact absurd (hsame ▸ hgiven) hnot
  · refine (Call.Scene.Reachable.looksInVain (.trans hr.traffic hu) hm ?_ hgiven).2
    rwa [Call.Scene.HasGivenUp, hparties]

/-- Who has given up has missed its wait. -/
theorem missesWait_iff (h₀ : s₀.isStart) (hs : afterMoves move s₀ ms = some s) :
    s₀.MissesWait ms i ↔ s.traffic.HasGivenUp i := by
  constructor
  · rintro ⟨before, after, u, p, rfl, hu, hp, hmissed⟩
    rw [afterMoves_append, hu, Option.bind_some] at hs
    refine CrossCall.Reachable.keeps (P := fun s => Call.Scene.HasGivenUp s i)
      (fun s m t h hm => h.move hm) (traffic_reachable (.of_afterMoves hs)) ?_
    rintro _ rfl
    refine ⟨p, hp, ?_⟩
    unfold Call.CallerStand.hasMissed at hmissed
    split at hmissed
    · next hc => rw [hc]; rfl
    · next hc => rw [hc]; rfl
    · cases hmissed
  · intro hgiven
    have hstart : ¬ s₀.traffic.HasGivenUp i := by
      rintro ⟨p, hp, -⟩
      rw [h₀.2.1.1] at hp
      cases hp
    obtain ⟨before, m, after, u, v, hms, hu, hm, -, hnot, hgiven⟩ :=
      exists_turn (P := fun s => s.traffic.HasGivenUp i) hs hstart hgiven
    have hur : u.Reachable := .trans (.start h₀) (.of_afterMoves hu)
    obtain ⟨q, hq, hmissed⟩ := (step_of_move hm).misses hur hnot hgiven
    refine ⟨before ++ [m], after, v, q, by rw [hms, List.append_assoc]; rfl, ?_, hq, hmissed⟩
    simp [afterMoves_append, hu, afterMoves, hm]

/-- A caller whose callable was run is told how it ended, or has given up. -/
theorem Reachable.reports_iff (h : s.Reachable) (ha : s.traffic.attempts[k]? = some a)
    (hstand : a.stand = .over (some r)) (hp : s.traffic.parties[a.envelope.call]? = some p)
    {outcome : Except InvokeError V} (hc : p.caller = .returned outcome) :
    Call.Reports outcome r ↔ ¬ s.traffic.HasGivenUp a.envelope.call := by
  have hstage := (h.traffic.sound.courses _ p hp).stage
  rw [Call.Scene.course, h.stands_of_attempt ha, hstand, hc] at hstage
  constructor
  · rintro hreports ⟨q, hq, hgiven⟩
    obtain rfl := Option.some.inj (hp.symm.trans hq)
    rw [hc] at hgiven
    cases hreports <;> cases hgiven
  · intro hnot
    rcases hstage.cases_of_returned with ⟨r', hreports, hruns⟩ | rfl | ⟨e, rfl⟩
    · obtain rfl := Option.some.inj (Call.TargetStand.over.inj (List.singleton_inj.mp hruns))
      exact hreports
    · exact absurd (Call.Scene.hasGivenUp_of_returned hp hc) hnot
    · -- The worker has not run what it has refused.
      obtain ⟨p', hp', hargs⟩ :=
        h.desk.jobs _ (h.accepted_of_attempt (List.mem_of_getElem? ha))
      obtain rfl := Option.some.inj (hp.symm.trans hp')
      cases h.desk.places _ p hp with
      | handing pc hh => rw [hc] at hh; cases hh
      | letIn hl => rw [hc] at hl; cases hl
      | refused _ hout =>
        refine absurd (h.accepted_of_attempt (List.mem_of_getElem? ha)) ?_
        rwa [hargs] at hout

/-- A caller who has not given up when the attempt at its call is over comes back with what the
callable came to. -/
theorem Reachable.comesBack_reporting (h : s.Reachable) (ha : s.traffic.attempts[k]? = some a)
    (hstand : a.stand = .over (some r)) (hp : s.traffic.parties[a.envelope.call]? = some p)
    (hnot : ¬ s.traffic.HasGivenUp a.envelope.call) :
    s.ComesBack a.envelope.call (isOwn a.envelope.call p) (Call.Reports · r) := by
  have hstands := h.stands_of_attempt ha
  have haccepted := h.accepted_of_attempt (List.mem_of_getElem? ha)
  obtain ⟨p', hp', hargs⟩ := h.desk.jobs _ haccepted
  obtain rfl := Option.some.inj (hp.symm.trans hp')
  obtain ⟨ns, t, q, outcome, ht, hns, hq, hc, -⟩ := h.comesBack_of_over hp (hargs ▸ haccepted)
    (by rw [hstands, hstand]; exact List.forall_mem_singleton.mpr rfl)
    (by rw [hstands]; exact List.cons_ne_nil _ _)
  have hlater := traffic_reachable (.of_afterMoves ht)
  obtain ⟨b, hb, he, hbs⟩ := Call.Scene.Reachable.stays_over hlater ha hstand
  refine ⟨ns, t, q, outcome, ht, hns, hq, hc, ?_⟩
  have htr : t.Reachable := .trans h (.of_afterMoves ht)
  refine (htr.reports_iff hb hbs (he ▸ hq) hc).mpr ?_
  rw [he]
  refine h.traffic.never_gives_up ⟨k, a, r, ha, rfl, ?_⟩ hnot hlater
  rw [hstand]
  exact .ended

/-- Whatever the items do, the worker's thread runs all that was accepted to its end; the item of a
call ends by itself. Once all has ended, the counter of panics is the number of posted items that
unwound, and the other one that of the posted items that returned and of all calls, those that
panicked or were passed over among them: as words, and as numbers as long as a word can count the
accepted items. A panic of a callable is told to the caller as such, and is
on its way to it from then on, if and only if the caller had not given the call up when the outcome
was to be stored and does not miss its wait. Nothing ever unwinds out of the worker's turns. -/
theorem panics_stay_with_the_worker (h₀ : s₀.isStart) (hs : afterMoves move s₀ ms = some s) :
    s.Attains s.HasServed ∧
    (∀ e unwound, (.call e, unwound) ∈ s.office.deeds.ended → unwound = false) ∧
    (s.HasServed s → s.office.worker.panicked = .ofNat (countPosted s.office.deeds.ended true) ∧
      s.office.worker.executed =
        .ofNat (countPosted s.office.deeds.ended false + s.acceptedCalls.length) ∧
      (s.office.deeds.accepted.length < UInt64.size →
        s.office.worker.panicked.toNat = countPosted s.office.deeds.ended true ∧
          s.office.worker.executed.toNat =
            countPosted s.office.deeds.ended false + s.acceptedCalls.length)) ∧
    (∀ (k : Nat) a payload, s.traffic.attempts[k]? = some a →
      a.stand = .over (some (.error payload)) →
      ∃ u v, s₀.AtConclusion ms k (.error payload) u v ∧
        (v.IsStoring k (.error payload) ↔ ¬ u.traffic.HasAbandoned a.envelope.call) ∧
        ∀ ns t p, afterMoves move s ns = some t → t.traffic.parties[a.envelope.call]? = some p →
          (∀ outcome, p.caller = .returned outcome →
            (outcome = .error (.panicked payload.message) ↔
              ¬ u.traffic.HasAbandoned a.envelope.call ∧
                ¬ s₀.MissesWait (ms ++ ns) a.envelope.call)) ∧
          (¬ s₀.MissesWait (ms ++ ns) a.envelope.call →
            t.ComesBack a.envelope.call (isOwn a.envelope.call p)
              (· = .error (.panicked payload.message)))) ∧
    (∀ n call callable args rest m w result,
      (Script.Item.run ⟨n, .envelope call callable args⟩).ComesTo rest →
        rest.step m w = .halted result → result = .ok (.ok ())) ∧
    ∀ n rest m w payload, (Script.drainTurn n).ComesTo rest →
      rest.step m w ≠ .halted (.error payload) := by
  have hreach : s.Reachable := .trans (.start h₀) (.of_afterMoves hs)
  refine ⟨hreach.attains_hasServed, hreach.ended_call, hreach.counters_of_hasServed,
    fun k a payload ha hstand => ?_, fun n call callable args rest m w result hrest hhalt => ?_,
    fun n rest m w payload hrest => Script.drainTurn_ne_halted hrest payload⟩
  · have hconcluded : a.stand.Concluded (.error payload) := hstand ▸ .ended
    obtain ⟨u, v, hconclusion, hus, hstoring⟩ := exists_conclusion h₀ hs ha hconcluded
    refine ⟨u, v, hconclusion, hstoring, fun ns t p ht hp => ?_⟩
    have hms : afterMoves move s₀ (ms ++ ns) = some t := by
      rw [afterMoves_append, hs]
      exact ht
    have htr : t.Reachable := .trans hreach (.of_afterMoves ht)
    have hst := traffic_reachable (.of_afterMoves ht)
    obtain ⟨b, hb, he, hbs⟩ := Call.Scene.Reachable.stays_over hst ha hstand
    rw [missesWait_iff h₀ hms, ← he]
    refine ⟨fun outcome hc => ?_, fun hnot => ?_⟩
    · rw [← Call.reports_error_iff, htr.reports_iff hb hbs (he ▸ hp) hc]
      refine ⟨fun hnot => ⟨fun hgone => hnot ?_, hnot⟩, And.right⟩
      -- Who had given the call up by then has still given it up.
      have hur : u.traffic.Reachable := by
        obtain ⟨before, -, -, -, -, -, hu, -⟩ := hconclusion
        exact Reachable.traffic (.trans (.start h₀) (.of_afterMoves hu))
      exact htr.traffic.sound.hasGivenUp
        (hur.stays_abandoned hgone (.trans (traffic_reachable hus) hst))
    · exact (htr.comesBack_reporting hb hbs (he ▸ hp) hnot).mono
        fun _ => Call.reports_error_iff.mp
  · obtain ⟨x, rfl, rfl⟩ :=
      ((Script.Item.envelope_returns n call callable args).comesTo hrest).halted hhalt
    rfl

/-- Two callables panic, and something posted. The caller of the second has given up while it ran. -/
def panicsThreeTimes : List (Move Nat Nat) :=
  List.flatten [[.call 0 7 .infinite], List.replicate 4 (.step 0), [.call 1 8 (.within .zero)],
    List.replicate 4 (.step 1), [.drain, .stepAttempt 0, .stepAttempt 0,
      .finishCallable (.error (.literal "boom"))],
    List.replicate 7 (.stepAttempt 0), [.drain, .drain, .drain, .stepAttempt 0, .stepAttempt 0],
    List.replicate 8 (.stepCaller 1 false),
    [.finishCallable (.error (.literal "too late")), .stepAttempt 0, .stepAttempt 0, .post 2 5],
    List.replicate 4 (.step 2), [.drain, .drain, .drain, .finish true, .drain, .drain]]

theorem panics_stay_with_the_worker_three_times :
    ∃ s, afterMoves move fourIdle panicsThreeTimes = some s ∧
      s.office.worker.panicked.toNat = 1 ∧ s.office.worker.executed.toNat = 2 ∧
      ∃ p q, s.traffic.parties[0]? = some p ∧
        s.ComesBack 0 (isOwn 0 p) (· = .error (.panicked "boom")) ∧
        s.traffic.parties[1]? = some q ∧ q.caller = .returned (.error .timedOut) := by
  have h₀ : fourIdle.isStart := ⟨⟨⟨"w", 4, rfl, by decide⟩, by decide, rfl, rfl⟩, ⟨rfl, rfl, rfl⟩, rfl⟩
  have hs : afterMoves move fourIdle panicsThreeTimes = some _ := rfl
  obtain ⟨-, -, hcounters, htold, -⟩ := panics_stay_with_the_worker h₀ hs
  obtain ⟨hpanicked, hexecuted⟩ := (hcounters ⟨⟨[], rfl⟩, rfl⟩).2.2 (by decide)
  obtain ⟨u, v, -, -, htold⟩ := htold 0 _ (.literal "boom") rfl rfl
  refine ⟨_, hs, hpanicked, hexecuted, _, _, rfl, ?_, rfl, rfl⟩
  refine (htold [] _ _ rfl rfl).2 ?_
  rw [missesWait_iff h₀ (by rw [List.append_nil]; exact hs)]
  rintro ⟨p, hp, hgiven⟩
  obtain rfl := Option.some.inj hp
  cases hgiven

end Callers
end CrossCall.Worker
