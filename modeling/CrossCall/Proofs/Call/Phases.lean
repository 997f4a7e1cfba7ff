import CrossCall.Proofs.Call.Progress
import CrossCall.Proofs.Call.Timeouts

/-! The phase of a call and the permit of its signal. They lie behind two locks and yet go together:
the one permit there ever is comes while the run that stored its outcome still has the lock of the
phase, and whoever settles the call has taken it. So wherever nobody has that lock, a permit tells
of an outcome, and an outcome of a permit that is there or that the caller has just taken. -/

namespace CrossCall

variable {V : Type}

/-- The callable has ended, and what it came to lies ready. -/
def Phase.hasOutcome : Phase V → Bool
  | .completed _ | .panicked _ => true
  | _ => false

def Phase.isFinal : Phase V → Bool
  | .abandoned | .settled => true
  | _ => false

/-- How the phase of a call may change. -/
inductive Phase.Advances : Phase V → Phase V → Prop where
  | start : Advances .dispatched .running
  | complete (v : V) : Advances .running (.completed v)
  | panic (message : String) : Advances .running (.panicked message)
  | settle {phase : Phase V} : phase.hasOutcome → Advances phase .settled
  | abandon {phase : Phase V} : ¬ phase.isFinal → Advances phase .abandoned

theorem Phase.not_final_of_hasOutcome {phase : Phase V} (h : phase.hasOutcome) :
    ¬ phase.isFinal := by
  cases phase with
  | completed | panicked => exact nofun
  | _ => cases h

theorem Phase.Advances.not_final {phase phase' : Phase V} (h : phase.Advances phase') :
    ¬ phase.isFinal := by
  cases h with
  | start | complete | panic => exact nofun
  | settle h => exact Phase.not_final_of_hasOutcome h
  | abandon h => exact h

theorem Phase.advances_outcomePhase (outcome : Except String V) :
    Phase.Advances .running (Call.outcomePhase outcome) := by
  cases outcome with
  | ok v => exact .complete v
  | error message => exact .panic message

end CrossCall

namespace CrossCall.Call

variable {A V : Type}

/-- The attempt has stored `r` and not raised the signal yet. -/
inductive TargetStand.Stored (r : Except Payload V) : TargetStand V → Prop where
  | locking : Stored r (.delivering r (.raising .locking))
  | adding : Stored r (.delivering r (.raising .adding))

theorem TargetStand.Stored.holds {stand : TargetStand V} {r : Except Payload V}
    (h : stand.Stored r) : stand.holds := by
  cases h <;> rfl

theorem TargetStand.Stored.hasStarted {stand : TargetStand V} {r : Except Payload V}
    (h : stand.Stored r) : stand.hasStarted := by
  cases h <;> rfl

theorem TargetStep.stores {m : Moment} {c c' : Call V} {stand stand' : TargetStand V}
    {r : Except Payload V} (h : TargetStep m c stand c' stand') (hs : stand'.Stored r)
    (hn : ¬ stand.Stored r) : stand = .delivering r .storing := by
  cases hs with
  | locking =>
    cases h with
    | store => rfl
    | raise _ pc pc' s hr => cases hr
  | adding =>
    cases h with
    | raise _ pc pc' s hr =>
      cases hr
      exact absurd .locking hn

theorem TargetStep.raising_of_lt {m : Moment} {c c' : Call V} {stand stand' : TargetStand V}
    (h : TargetStep m c stand c' stand') (hlt : c.signal.permits < c'.signal.permits) :
    ∃ r, stand = .delivering r (.raising .adding) := by
  cases h with
  | raise r pc pc' s hr =>
    cases hr with
    | lock => exact absurd hlt (Nat.lt_irrefl _)
    | add => exact ⟨r, rfl⟩
  | raised r pc s hr =>
    cases hr
    rw [Signal.notifyOne_permits] at hlt
    exact absurd hlt (Nat.lt_irrefl _)
  | _ => exact absurd hlt (Nat.lt_irrefl _)

theorem TargetStep.of_adding {m : Moment} {c c' : Call V} {stand : TargetStand V}
    {r : Except Payload V} (h : TargetStep m c (.delivering r (.raising .adding)) c' stand) :
    c'.signal.permits = Signal.addPermit c.signal.permits ∧ stand.Raised r := by
  cases h with
  | raise _ pc pc' s hr =>
    cases hr
    exact ⟨rfl, .notifying⟩
  | raised _ pc s hr => cases hr

theorem CallerStep.permits_le {bound : WaitBound} {m : Moment} {c c' : Call V}
    {caller caller' : CallerStand V} (h : CallerStep bound m c caller c' caller') :
    c'.signal.permits ≤ c.signal.permits := by
  cases h with
  | wait since pc pc' s hw => cases hw <;> exact Nat.le_refl _
  | waited since pc s signaled hw =>
    cases hw with
    | take => exact Nat.sub_le ..
    | miss => exact Nat.le_refl _
  | lock | settle | abandon => exact Nat.le_refl _

/-! ### Phase, permit and caller -/

theorem Keeps.hasOutcome {phase : Phase V} {r : Except Payload V} (h : Keeps phase r) :
    phase.hasOutcome := by
  cases h <;> rfl

namespace Stage

variable {phase : Phase V} {permits : Nat} {caller : CallerStand V} {runs : List (TargetStand V)}
  {r : Except Payload V}

theorem not_final_of_unserved (h : Stage phase permits caller runs) (hc : caller.isUnserved) :
    ¬ phase.isFinal := by
  cases h with
  | dispatched | running | storing => exact nofun
  | stored hk | raised hk | served hk => exact Phase.not_final_of_hasOutcome hk.hasOutcome
  | _ => cases hc

theorem hasOutcome_of_permit (h : Stage phase permits caller runs) (hn : 0 < permits)
    (hc : caller ≠ .returned (.error .timedOut)) : phase.hasOutcome := by
  cases h with
  | raised hk | refusedRun _ hk => exact hk.hasOutcome
  | abandonedOver => exact absurd rfl hc
  | _ => cases hn

theorem eq_one_of_permit (h : Stage phase permits caller runs) (hn : 0 < permits)
    (hc : caller.isUnserved) : permits = 1 := by
  cases h with
  | raised => rfl
  | refusedRun | abandonedOver => cases hc
  | _ => cases hn

theorem permit_of_hasOutcome (h : Stage phase permits caller runs) (hp : phase.hasOutcome)
    (hfree : ∀ stand ∈ runs, ¬ stand.holds) : permits = 1 ∨ caller.isServed := by
  cases h with
  | raised | refusedRun => exact .inl rfl
  | served _ hs => exact .inr hs
  | stored => exact absurd rfl (hfree _ (.head _))
  | _ => cases hp

theorem of_stored {stand : TargetStand V} (h : Stage phase permits caller [stand])
    (hs : stand.Stored r) : Keeps phase r ∧ permits = 0 := by
  cases hs with
  | locking | adding =>
    obtain ⟨hk, hn, -⟩ := h.of_raising nofun
    exact ⟨hk, hn⟩

end Stage

namespace Course

variable {c d : Course V} {bound : WaitBound}

/-- One step leaves the phase as it is or takes it one step on. -/
theorem Step.phase (hs : c.Step bound d) (h : c.Sound) :
    d.call.phase = c.call.phase ∨ c.call.phase.Advances d.call.phase := by
  have hstage := h.stage
  cases hs with
  | take | drop | accept | refuse | finish => exact .inl rfl
  | caller m call caller hs =>
    generalize c.caller = old at hs hstage
    cases hs with
    | wait | waited | lock => exact .inl rfl
    | settle since =>
      obtain ⟨-, r, stand, hk, -⟩ := hstage.of_served rfl
      exact .inr (.settle hk.hasOutcome)
    | abandon since => exact .inr (.abandon (hstage.not_final_of_unserved rfl))
  | target m before after stand stand' call hc hs =>
    cases hs with
    | pass hd => exact .inr (hd ▸ .start)
    | store r =>
      have hm : .delivering r .storing ∈ c.stands := by simp [hc]
      obtain ⟨hp, -⟩ := (h.stage_of_started hm rfl).of_storing
      refine .inr ?_
      rw [hp]
      exact Phase.advances_outcomePhase _
    | _ => exact .inl rfl

/-- The caller has taken a permit, or has settled the call with it. -/
def HasTaken (c : Course V) : Prop := c.caller.isServed ∨ c.call.phase = .settled

/-- Only by taking the permit, the only one there is, a caller comes to settle the call. -/
theorem Step.takes (hs : c.Step bound d) (h : c.Sound) (hc : ¬ c.HasTaken) (hd : d.HasTaken) :
    ∃ since deadline cause since',
      c.caller = .collecting since (.waiting (.looking deadline cause)) ∧
      c.call.signal.permits = 1 ∧ c.call.phase.hasOutcome ∧
      d.caller = .collecting since' (.locking true) ∧ d.call.signal.permits = 0 := by
  have hstage := h.stage
  obtain ⟨hserved, hsettled⟩ := not_or.mp hc
  cases hs with
  | take | drop | finish => exact absurd hd hc
  | accept | refuse => exact absurd (hd.resolve_left nofun) hsettled
  | caller m call caller hs =>
    generalize c.caller = old at hs hstage hserved
    cases hs with
    | wait => exact absurd (hd.resolve_left nofun) hsettled
    | waited since pc s signaled hw =>
      cases hw with
      | take deadline cause hn =>
        have hone := hstage.eq_one_of_permit hn rfl
        refine ⟨since, deadline, cause, _, rfl, hone, hstage.hasOutcome_of_permit hn nofun, rfl, ?_⟩
        exact congrArg (· - 1) hone
      | miss => exact absurd (hd.resolve_left nofun) hsettled
    | lock since signaled =>
      cases signaled with
      | true => exact absurd rfl hserved
      | false => exact absurd (hd.resolve_left nofun) hsettled
    | settle => exact absurd rfl hserved
    | abandon => exact absurd (hd.resolve_left nofun) nofun
  | target m before after stand stand' call hst hs =>
    cases hs with
    | pass => exact absurd (hd.resolve_left hserved) nofun
    | store r => exact absurd (hd.resolve_left hserved) (by cases r <;> exact nofun)
    | _ => exact absurd hd hc

end Course

namespace Scene

variable {s s₀ t : Scene A V} {m : Move A V} {ms : List (Move A V)} {i k : Nat}
  {p q : Party A V} {r : Except Payload V}

/-! ### The phase -/

theorem Reachable.phase_of_move (hs : s.Reachable) (hp : s.parties[i]? = some p)
    (hm : s.move m = some t) :
    ∃ q, t.parties[i]? = some q ∧
      (q.call.phase = p.call.phase ∨ p.call.phase.Advances q.call.phase) := by
  obtain ⟨q, hq, -, -, -, hsame | hstep⟩ := move_follows m hp hm
  · exact ⟨q, hq, .inl (congrArg (·.call.phase) hsame)⟩
  · exact ⟨q, hq, hstep.phase (hs.sound.courses i p hp)⟩

theorem Reachable.stays_final (hs : s.Reachable) (hp : s.parties[i]? = some p)
    (hfinal : p.call.phase.isFinal) (ht : CrossCall.Reachable move (· = s) t) :
    ∃ q, t.parties[i]? = some q ∧ q.call.phase = p.call.phase := by
  refine CrossCall.Reachable.keeps_from
    (P := fun t => ∃ q, t.parties[i]? = some q ∧ q.call.phase = p.call.phase) hs ?_
    ⟨p, hp, rfl⟩ ht
  rintro u m v hu ⟨q, hq, hphase⟩ hm
  obtain ⟨q', hq', hsame | hadvances⟩ := Reachable.phase_of_move hu hq hm
  · exact ⟨q', hq', hsame.trans hphase⟩
  · rw [hphase] at hadvances
    exact absurd hfinal hadvances.not_final

/-! ### The permit -/

/-- This move is the one by which attempt `k` at call `i`, whose callable ended with `r`, raises the
signal. -/
def Raises (s : Scene A V) (i k : Nat) (r : Except Payload V) (m : Move A V) : Prop :=
  ∃ pick a, m = .stepAttempt k pick ∧ s.attempts[k]? = some a ∧ a.envelope.call = i ∧
    a.stand = .delivering r (.raising .adding)

/-- Attempt `k` at call `i` has stored `r`, so that the phase tells of it, and has yet to raise the
signal. It has the lock of the phase, and nobody else has. -/
def HoldsStored (s : Scene A V) (i k : Nat) (r : Except Payload V) : Prop :=
  ∃ p a, s.parties[i]? = some p ∧ s.attempts[k]? = some a ∧ a.envelope.call = i ∧
    a.stand.Stored r ∧ Keeps p.call.phase r ∧ p.call.signal.permits = 0 ∧ p.call.holder ≠ none ∧
    ∀ m, s.HoldsPhase i m → ∃ pick, m = .stepAttempt k pick

/-- By one of these moves attempt `k` at call `i` stored `r`, the phase being running until then,
and ever since it has had the lock of the phase and the signal has not been raised. -/
def HasStored (s₀ : Scene A V) (ms : List (Move A V)) (i k : Nat) (r : Except Payload V) : Prop :=
  ∃ before pick within u v p a, ms = before ++ .stepAttempt k pick :: within ∧
    afterMoves move s₀ before = some u ∧ u.parties[i]? = some p ∧ p.call.phase = .running ∧
    u.attempts[k]? = some a ∧ a.envelope.call = i ∧ a.stand = .delivering r .storing ∧
    u.move (.stepAttempt k pick) = some v ∧ AllAlong move (·.HoldsStored i k r) v within

/-- By one of these moves caller `i` took the permit of its call, the only one there was, an outcome
being ready. -/
def TakesPermit (s₀ : Scene A V) (ms : List (Move A V)) (i : Nat) : Prop :=
  ∃ before stray after u v p q since deadline cause since',
    ms = before ++ .stepCaller i stray :: after ∧ afterMoves move s₀ before = some u ∧
    u.parties[i]? = some p ∧ p.call.phase.hasOutcome ∧ p.call.signal.permits = 1 ∧
    p.caller = .collecting since (.waiting (.looking deadline cause)) ∧
    u.move (.stepCaller i stray) = some v ∧ v.parties[i]? = some q ∧
    q.call.signal.permits = 0 ∧ q.caller = .collecting since' (.locking true)

theorem Sound.eq_of_holds (h : s.Sound) {j : Nat} {a b : Attempt A V} (hp : s.parties[i]? = some p)
    (ha : s.attempts[j]? = some a) (hai : a.envelope.call = i) (has : a.stand.holds)
    (hb : s.attempts[k]? = some b) (hbi : b.envelope.call = i) (hbs : b.stand.holds) : j = k := by
  have hle : (s.course i p).stands.countP TargetStand.holds ≤ 1 :=
    Nat.le_trans (Nat.le_add_right ..) (h.courses i p hp).locked_le
  rw [course, stands, List.countP_map, List.countP_filter] at hle
  exact eq_of_countP_le_one hle ha hb (by simp [has, hai]) (by simp [hbs, hbi])

theorem Sound.holdsStored (h : s.Sound) (hp : s.parties[i]? = some p) {a : Attempt A V}
    (ha : s.attempts[k]? = some a) (hi : a.envelope.call = i) (hs : a.stand.Stored r) :
    s.HoldsStored i k r := by
  obtain ⟨hk, hn⟩ := (h.stage_of_attempt hp ha hi hs.hasStarted).of_stored hs
  refine ⟨p, a, hp, ha, hi, hs, hk, hn, ?_, fun m hm => ?_⟩
  · exact (h.phase_locked_iff hp).mpr ⟨_, .attempt k 0 a ha hi hs.holds⟩
  · cases hm with
    | caller q hq hc =>
      obtain rfl := Option.some.inj (hp.symm.trans hq)
      exact absurd hs.holds ((h.courses i p hp).not_holds hc _ (mem_stands ha hi))
    | attempt j pick b hb hbi hbs =>
      exact ⟨pick, by rw [h.eq_of_holds hp hb hbi hbs ha hi hs.holds]⟩

theorem Sound.stores (h : s.Sound) (hm : s.move m = some t) (hs : ¬ s.HoldsStored i k r)
    (ht : t.HoldsStored i k r) :
    ∃ pick p a, m = .stepAttempt k pick ∧ s.parties[i]? = some p ∧ p.call.phase = .running ∧
      s.attempts[k]? = some a ∧ a.envelope.call = i ∧ a.stand = .delivering r .storing := by
  obtain ⟨-, b, -, hb, hbi, hbs, -⟩ := ht
  have hnot {a : Attempt A V} (ha : s.attempts[k]? = some a) (hai : a.envelope.call = i) :
      ¬ a.stand.Stored r := by
    intro hst
    have hlt := h.call_lt (List.mem_append_right _ (List.mem_map_of_mem (List.mem_of_getElem? ha)))
    exact hs (h.holdsStored (List.getElem?_eq_getElem (hai ▸ hlt)) ha hai hst)
  cases change_of_move hm with
  | stepAttempt j pick a p call stand ha hp hstep =>
    by_cases hjk : j = k
    · subst hjk
      obtain rfl := Option.some.inj
        (hb.symm.trans (attempts_putAttempt (s := s.putCall _ call) ha stand))
      have hstand := hstep.stores hbs (hnot ha hbi)
      have hstage := h.stage_of_attempt hp ha rfl (by rw [hstand]; rfl)
      rw [hstand] at hstage
      subst hbi
      exact ⟨pick, p, a, rfl, hp, hstage.of_storing.1, ha, rfl, hstand⟩
    · have hsame := attempts_putAttempt_ne (s := s.putCall a.envelope.call call) hjk stand
      exact absurd hbs (hnot (hsame.symm.trans hb) hbi)
  | finish j r' a ha hrun =>
    by_cases hjk : j = k
    · subst hjk
      obtain rfl := Option.some.inj (hb.symm.trans (attempts_putAttempt ha _))
      cases hbs
    · exact absurd hbs (hnot ((attempts_putAttempt_ne hjk _).symm.trans hb) hbi)
  | take thread j keep e he =>
    rcases Nat.lt_or_ge k s.attempts.length with hlt | hge
    · exact absurd hbs (hnot ((List.getElem?_append_left hlt).symm.trans hb) hbi)
    · rw [List.getElem?_append_right hge] at hb
      rw [List.mem_singleton.mp (List.mem_of_getElem? hb)] at hbs
      cases hbs
  | _ => exact absurd hbs (hnot hb hbi)

theorem hasStored_of_holdsStored (h₀ : s₀.isStart) (hs : afterMoves move s₀ ms = some s)
    (h : s.HoldsStored i k r) : s₀.HasStored ms i k r := by
  have hstart : ¬ s₀.HoldsStored i k r := by
    rintro ⟨p, a, hp, -⟩
    simp [h₀.1] at hp
  obtain ⟨before, m, within, u, v, hms, hu, hm, hnot, hall⟩ :=
    exists_last_turn (P := (·.HoldsStored i k r)) hs (fun hall => hstart hall.head) h
  have hur : u.Reachable := .trans (.start h₀) (.of_afterMoves hu)
  obtain ⟨pick, p, a, rfl, hp, hphase, ha, hi, hst⟩ := hur.sound.stores hm hnot hall.head
  exact ⟨before, pick, within, u, v, p, a, hms, hu, hp, hphase, ha, hi, hst, hm, hall⟩

theorem Raises.hasRaised (h : s.Raises i k r m) (hm : s.move m = some t) : t.HasRaised i := by
  obtain ⟨pick, a, rfl, ha, hi, hst⟩ := h
  cases change_of_move hm with
  | stepAttempt _ _ a' p call stand ha' hp hstep =>
    obtain rfl := Option.some.inj (ha.symm.trans ha')
    rw [hst] at hstep
    exact ⟨k, _, r, attempts_putAttempt (s := s.putCall _ call) ha stand, hi, hstep.of_adding.2⟩

theorem Sound.not_raises (h : s.Sound) (hraised : s.HasRaised i) : ¬ s.Raises i k r m := by
  rintro ⟨pick, a, rfl, ha, hi, hst⟩
  obtain ⟨j, b, r', hb, hbi, hr⟩ := hraised
  rw [h.eq_of_started (List.mem_of_getElem? ha) (List.mem_of_getElem? hb) (hbi.trans hi.symm)
    (by rw [hst]; rfl) hr.hasStarted, hst] at hr
  cases hr

/-- A permit comes by a raise and by no other move. -/
theorem raises_of_lt (hp : s.parties[i]? = some p) (hm : s.move m = some t)
    (hq : t.parties[i]? = some q) (hlt : p.call.signal.permits < q.call.signal.permits) :
    ∃ k r, s.Raises i k r m := by
  have hne : q.call.signal.permits ≠ p.call.signal.permits := Nat.ne_of_gt hlt
  by_cases hi : s.callOf m = some i
  · cases change_of_move hm with
    | launch =>
      rw [List.getElem?_append_left (List.getElem?_eq_some_iff.mp hp).1, hp] at hq
      obtain rfl := Option.some.inj hq
      exact absurd rfl hne
    | accept | refuse =>
      obtain rfl := Option.some.inj hi
      obtain rfl := Option.some.inj (hq.symm.trans (parties_modify_self _ hp))
      exact absurd rfl hne
    | stepCaller j stray p' call caller hp' hstep =>
      obtain rfl := Option.some.inj hi
      obtain rfl := Option.some.inj (hp.symm.trans hp')
      obtain rfl := Option.some.inj (hq.symm.trans (parties_put hp call caller))
      exact absurd hlt (Nat.not_lt_of_le hstep.permits_le)
    | stepAttempt k pick a p' call stand ha hp' hstep =>
      obtain rfl : a.envelope.call = i := by
        rwa [callOf, ha, Option.map_some, Option.some.injEq] at hi
      obtain rfl := Option.some.inj (hp.symm.trans hp')
      obtain rfl := Option.some.inj (hq.symm.trans (parties_modify_self _ hp))
      obtain ⟨r, hst⟩ := hstep.raising_of_lt hlt
      exact ⟨k, r, pick, a, rfl, ha, rfl, hst⟩
    | _ =>
      obtain rfl := Option.some.inj (hq.symm.trans hp)
      exact absurd rfl hne
  · have hsame := (spares_of_move hm hi).party.trans hp
    obtain rfl := Option.some.inj (hq.symm.trans hsame)
    exact absurd rfl hne

/-- A raise adds a permit where there is none. -/
theorem Sound.lt_of_raises (h : s.Sound) (hp : s.parties[i]? = some p) (hm : s.move m = some t)
    (hq : t.parties[i]? = some q) (hraises : s.Raises i k r m) :
    p.call.signal.permits < q.call.signal.permits := by
  obtain ⟨pick, a, rfl, ha, rfl, hst⟩ := hraises
  cases change_of_move hm with
  | stepAttempt _ _ a' p' call stand ha' hp' hstep =>
    obtain rfl := Option.some.inj (ha.symm.trans ha')
    obtain rfl := Option.some.inj (hp.symm.trans hp')
    obtain rfl := Option.some.inj (hq.symm.trans (parties_modify_self _ hp))
    have hstage := h.stage_of_attempt hp ha rfl (by rw [hst]; rfl)
    rw [hst] at hstep hstage
    show p.call.signal.permits < call.signal.permits
    rw [hstep.of_adding.1, (hstage.of_stored .adding).2]
    decide

theorem takesPermit_of_settled (h₀ : s₀.isStart) (hs : afterMoves move s₀ ms = some s)
    (hp : s.parties[i]? = some p) (hphase : p.call.phase = .settled) : s₀.TakesPermit ms i := by
  have hstart : ¬ ∃ p, s₀.parties[i]? = some p ∧ (s₀.course i p).HasTaken := by
    rintro ⟨p, hp, -⟩
    simp [h₀.1] at hp
  obtain ⟨before, m, after, u, v, hms, hu, hm, -, hnot, q, hq, htaken⟩ :=
    exists_turn (P := fun s => ∃ p, s.parties[i]? = some p ∧ (s.course i p).HasTaken) hs hstart
      ⟨p, hp, .inr hphase⟩
  have hur : u.Reachable := .trans (.start h₀) (.of_afterMoves hu)
  rcases hur.sound.move_party hm hq with ⟨p', hp', -, hstep⟩ | hnew
  · have hnotp : ¬ (u.course i p').HasTaken := fun h => hnot ⟨p', hp', h⟩
    rcases hstep with hsame | hstep
    · exact absurd (hsame ▸ htaken) hnotp
    · obtain ⟨since, deadline, cause, since', hc, hn, hout, hd, hn'⟩ :=
        hstep.takes (hur.sound.courses i p' hp') hnotp htaken
      cases callerMove_of_move hm hp' with
      | rest m r hr hsame =>
        obtain rfl := Option.some.inj (hq.symm.trans hr)
        cases hd.symm.trans (hsame.trans hc)
      | accept hh => cases hc.symm.trans hh
      | refuse error hh => cases hc.symm.trans hh
      | step stray =>
        exact ⟨before, stray, after, u, v, p', q, since, deadline, cause, since', hms, hu, hp',
          hout, hn, hc, hm, hq, hn', hd⟩
  · rw [hnew] at htaken
    obtain h | h := htaken <;> cases h

/-- The phase of a call goes from dispatched to running, to an outcome and to settled, and from any
of these but the last to abandoned; there it stays, and where it is settled. The signal is raised
once at most, by the attempt that stored the outcome and has the lock of the phase ever since. While
nobody has that lock, a permit is there only with an outcome, unless the call timed out, and an
outcome only with a permit, unless the caller has just taken it; a permit that a time-out passed
over is still there. Whoever settles a call took its permit, the only one, before. -/
theorem phase_and_permit_go_together (h₀ : s₀.isStart) (hs : afterMoves move s₀ ms = some s)
    (hp : s.parties[i]? = some p) :
    (∀ m t, s.move m = some t → ∃ q, t.parties[i]? = some q ∧
      (q.call.phase = p.call.phase ∨ p.call.phase.Advances q.call.phase)) ∧
      (p.call.phase.isFinal → ∀ ns t, afterMoves move s ns = some t →
        ∃ q, t.parties[i]? = some q ∧ q.call.phase = p.call.phase) ∧
      (∀ m t q, s.move m = some t → t.parties[i]? = some q →
        (p.call.signal.permits < q.call.signal.permits ↔ ∃ k r, s.Raises i k r m)) ∧
      (∀ m t k r, s.move m = some t → s.Raises i k r m → s₀.HasStored ms i k r ∧
        ∀ ns u n j r', afterMoves move t ns = some u → ¬ u.Raises i j r' n) ∧
      (p.call.holder = none →
        (0 < p.call.signal.permits → p.caller ≠ .returned (.error .timedOut) →
          p.call.phase.hasOutcome) ∧
        (p.call.phase.hasOutcome → p.call.signal.permits = 1 ∨ p.caller.isServed)) ∧
      (p.call.phase = .settled → s₀.TakesPermit ms i) := by
  have hreach : s.Reachable := .trans (.start h₀) (.of_afterMoves hs)
  have hcourse := hreach.sound.courses i p hp
  refine ⟨fun m t hm => hreach.phase_of_move hp hm,
    fun hfinal ns t ht => hreach.stays_final hp hfinal (.of_afterMoves ht),
    fun m t q hm hq => ⟨raises_of_lt hp hm hq, fun ⟨_, _, hraises⟩ =>
      hreach.sound.lt_of_raises hp hm hq hraises⟩, fun m t k r hm hraises => ⟨?_, ?_⟩,
    fun hfree => ⟨hcourse.stage.hasOutcome_of_permit, fun hout => ?_⟩,
    takesPermit_of_settled h₀ hs hp⟩
  · obtain ⟨pick, a, -, ha, hi, hst⟩ := hraises
    refine hasStored_of_holdsStored h₀ hs (hreach.sound.holdsStored hp ha hi ?_)
    rw [hst]
    exact .adding
  · intro ns u n j r' hu
    have ht : t.Reachable := .move m hreach hm
    have hraised : u.HasRaised i := by
      refine CrossCall.Reachable.keeps (P := fun u => u.HasRaised i) ?_ (.of_afterMoves hu)
        fun _ hut => hut ▸ hraises.hasRaised hm
      exact fun s m t h hm => h.move hm
    exact (Reachable.sound (.trans ht (.of_afterMoves hu))).not_raises hraised
  · have hlocked := hcourse.locked
    rw [show (s.course i p).call.holder = none from hfree] at hlocked
    have hnone := List.countP_eq_zero.mp (Nat.eq_zero_of_add_eq_zero_right hlocked)
    exact hcourse.stage.permit_of_hasOutcome hout fun stand hm =>
      hnone stand (List.mem_filter.mp hm).1

theorem phase_and_permit_go_together_squared :
    (∃ s : Scene Nat Nat, afterMoves move { strict := true } (squaredInTime.take 10) = some s ∧
      s.Raises 0 0 (.ok 49) (.stepAttempt 0 0) ∧
      HasStored { strict := true } (squaredInTime.take 10) 0 0 (.ok 49)) ∧
    ∃ (s : Scene Nat Nat) (p : Party Nat Nat),
      afterMoves move { strict := true } squaredInTime = some s ∧ s.parties[0]? = some p ∧
      p.call.phase = .settled ∧ TakesPermit { strict := true } squaredInTime 0 := by
  have hraising := phase_and_permit_go_together (i := 0) ⟨rfl, rfl, rfl⟩
    (show afterMoves move { strict := true } (squaredInTime.take 10) = some _ from rfl) rfl
  have hsettled := phase_and_permit_go_together (i := 0) ⟨rfl, rfl, rfl⟩
    (show afterMoves move { strict := true } squaredInTime = some _ from rfl) rfl
  obtain ⟨-, -, -, hraise, -⟩ := hraising
  obtain ⟨-, -, -, -, -, htake⟩ := hsettled
  refine ⟨⟨_, rfl, ⟨0, _, rfl, rfl, rfl, rfl⟩, ?_⟩, _, _, rfl, rfl, rfl, htake rfl⟩
  exact (hraise (.stepAttempt 0 0) _ 0 (.ok 49) rfl ⟨0, _, rfl, rfl, rfl, rfl⟩).1

end Scene
end CrossCall.Call
