import CrossCall.Proofs.Call.Gate
import CrossCall.Proofs.Call.Patience

/-! Time-outs. A call times out by one look at the permits, the last of its wait: the deadline that
the bound had when the wait began is there and has come, no permit is left, and no run of the
callable has raised the signal. So a wait without a deadline never times out, and neither does one
that finds the callable run when it begins. -/

namespace CrossCall.Call

variable {A V : Type}

/-- The caller has not begun to wait. -/
def CallerStand.isYetToWait : CallerStand V → Bool
  | .handing | .collecting none _ => true
  | _ => false

/-- The wait has ended without a permit, or the caller has returned for that reason. -/
def CallerStand.hasGivenUp : CallerStand V → Bool
  | .collecting _ (.locking false) | .collecting _ (.holding false) => true
  | .returned (.error .timedOut) => true
  | _ => false

theorem TargetStand.Raised.hasStarted {stand : TargetStand V} {r : Except Payload V}
    (h : stand.Raised r) : stand.hasStarted := by
  cases h <;> rfl

/-- Once a run has raised the signal, a caller who has not been served has a permit to find. -/
theorem Stage.not_raised {phase : Phase V} {caller : CallerStand V} {stand : TargetStand V}
    (h : Stage phase 0 caller [stand]) (hc : caller.isUnserved) (r : Except Payload V) :
    ¬ stand.Raised r := by
  intro hr
  cases h with
  | running hu hs => cases hr <;> cases hs
  | storing r' hu => cases hr
  | stored hk hu hpc => cases hr; exact hpc rfl
  | served hk hs => rw [CallerStand.isServed_eq_false hc] at hs; cases hs
  | settled | abandonedRun | abandonedOver => cases hc

theorem TargetStep.stays_raised {m : Moment} {c c' : Call V} {stand stand' : TargetStand V}
    {r : Except Payload V} (h : TargetStep m c stand c' stand') (hr : stand.Raised r) :
    stand'.Raised r := by
  cases hr with
  | notifying =>
    cases h with
    | raise r pc pc' s hs => cases hs
    | raised => exact .releasing
  | releasing =>
    cases h with
    | release => exact .ended
  | ended => cases h

namespace CallerStep

variable {bound : WaitBound} {m : Moment} {c c' : Call V} {caller caller' : CallerStand V}
  {since : Instant}

theorem hasGivenUp (h : CallerStep bound m c caller c' caller') (hc : caller.hasGivenUp) :
    caller'.hasGivenUp := by
  cases h with
  | lock since signaled hh =>
    cases signaled with
    | false => rfl
    | true => cases hc
  | abandon since => rfl
  | _ => cases hc

/-- A caller gives up because of what its look at the permits shows it, and has missed its wait
then. -/
theorem gives_up (h : CallerStep bound m c caller c' caller')
    (hserved : ∀ since, caller = .collecting since (.holding true) →
      takeOutcome c.phase ≠ .error .timedOut)
    (hc : ¬ caller.hasGivenUp) (hc' : caller'.hasGivenUp) :
    (∃ since deadline, caller = .collecting since (.waiting (.looking deadline .expiry)) ∧
      c.signal.permits = 0) ∧ caller'.hasMissed := by
  cases h with
  | wait => cases hc'
  | waited since pc s signaled hw =>
    cases hw with
    | take => cases hc'
    | miss deadline hn => exact ⟨⟨since, deadline, rfl, hn⟩, rfl⟩
  | lock since signaled hh =>
    cases signaled with
    | false => exact absurd rfl hc
    | true => cases hc'
  | settle since =>
    have hne := hserved since rfl
    revert hc' hne
    cases takeOutcome c.phase with
    | ok v => exact fun hc' => nomatch hc'
    | error e =>
      cases e with
      | timedOut => exact fun _ hne => absurd rfl hne
      | _ => exact fun hc' => nomatch hc'
  | abandon since => exact absurd rfl hc

/-- The wait keeps the time at which it began. -/
theorem keeps_since (h : CallerStep bound m c caller c' caller') {pc : CollectPc}
    (hc : caller = .collecting (some since) pc) :
    (∃ pc', caller' = .collecting (some since) pc') ∨ ∃ outcome, caller' = .returned outcome := by
  cases h with
  | wait | waited | lock => cases hc; exact .inl ⟨_, rfl⟩
  | settle | abandon => exact .inr ⟨_, rfl⟩

/-- The time at which a wait began was read off the clock at its first step. -/
theorem begins (h : CallerStep bound m c caller c' caller') {pc : CollectPc}
    (hpatient : caller.Patient bound m.now) (hc : ∀ pc, caller ≠ .collecting (some since) pc)
    (hc' : caller' = .collecting (some since) pc) :
    caller = .collecting none (.waiting .arriving) ∧ m.now = since := by
  cases h with
  | wait old wpc wpc' s hw =>
    cases old with
    | none =>
      cases hpatient
      cases hc'
      exact ⟨rfl, rfl⟩
    | some old => cases hc'; exact absurd rfl (hc _)
  | waited old wpc s signaled hw =>
    cases old with
    | none => cases hpatient; cases hw
    | some old => cases hc'; exact absurd rfl (hc _)
  | lock old signaled hh =>
    cases old with
    | none => cases hpatient
    | some old => cases hc'; exact absurd rfl (hc _)
  | settle | abandon => cases hc'

end CallerStep

namespace Scene

variable {s s₀ t u v : Scene A V} {m : Move A V} {ms : List (Move A V)} {i : Nat} {p : Party A V}
  {since : Instant}

/-- A run of call `i` has ended, stored its outcome and raised the signal. -/
def HasRaised (s : Scene A V) (i : Nat) : Prop :=
  ∃ (k : Nat) (a : Attempt A V) (r : Except Payload V),
    s.attempts[k]? = some a ∧ a.envelope.call = i ∧ a.stand.Raised r

def HasGivenUp (s : Scene A V) (i : Nat) : Prop :=
  ∃ p, s.parties[i]? = some p ∧ p.caller.hasGivenUp

/-- Caller `i` holds the lock of the signal and looks at the permits, its wait, which began at
`since`, having run out. There is none, and no run has raised the signal. -/
def LooksInVain (s : Scene A V) (i : Nat) (since : Instant) : Prop :=
  ∃ p deadline, s.parties[i]? = some p ∧
    p.caller = .collecting (some since) (.waiting (.looking (some deadline) .expiry)) ∧
    p.bound.deadline since = some deadline ∧ deadline ≤ s.now ∧
    p.call.signal.permits = 0 ∧ ¬ s.HasRaised i

/-- At one of these moves caller `i` begins its wait, and the clock shows `since`. -/
def BeginsWait (s₀ : Scene A V) (ms : List (Move A V)) (i : Nat) (since : Instant) : Prop :=
  ∃ before stray after u v p q, ms = before ++ .stepCaller i stray :: after ∧
    afterMoves move s₀ before = some u ∧ u.move (.stepCaller i stray) = some v ∧ u.now = since ∧
    u.parties[i]? = some p ∧ p.caller = .collecting none (.waiting .arriving) ∧
    v.parties[i]? = some q ∧ ∃ pc, q.caller = .collecting (some since) pc

/-! ### Runs that have raised the signal -/

theorem HasRaised.move (h : s.HasRaised i) (hm : s.move m = some t) : t.HasRaised i := by
  obtain ⟨k, a, r, ha, hi, hr⟩ := h
  obtain ⟨b, hb, -, henvelope, honward⟩ := onward_of_move hm ha
  refine ⟨k, b, r, hb, henvelope ▸ hi, ?_⟩
  generalize b.stand = stand at honward
  cases honward with
  | rest => exact hr
  | step m p call stand hp hstep => exact hstep.stays_raised hr
  | finish r' hrun => rw [hrun] at hr; cases hr

theorem Sound.not_hasRaised (h : s.Sound) (hp : s.parties[i]? = some p)
    (hc : p.caller.isUnserved) (hn : p.call.signal.permits = 0) : ¬ s.HasRaised i := by
  rintro ⟨k, a, r, ha, hi, hr⟩
  have hstage := h.stage_of_attempt hp ha hi hr.hasStarted
  rw [hn] at hstage
  exact hstage.not_raised hc r hr

/-! ### Callers who give up -/

theorem HasGivenUp.move (h : s.HasGivenUp i) (hm : s.move m = some t) : t.HasGivenUp i := by
  obtain ⟨p, hp, hc⟩ := h
  obtain ⟨q, hq, -⟩ := move_follows m hp hm
  refine ⟨q, hq, ?_⟩
  cases callerMove_of_move hm hp with
  | rest m q' hq' hsame =>
    obtain rfl := Option.some.inj (hq.symm.trans hq')
    rwa [hsame]
  | accept hh => rw [hh] at hc; cases hc
  | refuse error hh => rw [hh] at hc; cases hc
  | step stray call caller hstep ht =>
    subst ht
    obtain rfl := Option.some.inj (hq.symm.trans (parties_put hp call caller))
    exact hstep.hasGivenUp hc

/-- The move by which a caller gives up is its last look at the permits, and with it the wait is
missed. -/
theorem Reachable.looksInVain (hs : s.Reachable) (hm : s.move m = some t)
    (hnot : ¬ s.HasGivenUp i) (h : t.HasGivenUp i) :
    (∃ since, s.LooksInVain i since) ∧ ∃ q, t.parties[i]? = some q ∧ q.caller.hasMissed := by
  obtain ⟨q, hq, hc⟩ := h
  rcases hs.sound.move_party hm hq with ⟨p, hp, -, -⟩ | hnew
  · have hpc : ¬ p.caller.hasGivenUp := fun hg => hnot ⟨p, hp, hg⟩
    cases callerMove_of_move hm hp with
    | rest m q' hq' hsame =>
      obtain rfl := Option.some.inj (hq.symm.trans hq')
      exact absurd (hsame ▸ hc) hpc
    | accept hh ht =>
      subst ht
      obtain rfl := Option.some.inj (hq.symm.trans (parties_modify_self _ hp))
      cases hc
    | refuse error hh ht =>
      subst ht
      obtain rfl := Option.some.inj (hq.symm.trans (parties_modify_self _ hp))
      cases hc
    | step stray call caller hstep ht =>
      subst ht
      obtain rfl := Option.some.inj (hq.symm.trans (parties_put hp call caller))
      obtain ⟨⟨began, deadline, hlook, hn⟩, hmissed⟩ := hstep.gives_up
        (fun since hold => hs.sound.takeOutcome_ne hp hold) hpc hc
      have hpatient := hs.patient i p hp
      rw [hlook] at hpatient
      generalize hd : deadline = d at hpatient
      cases hpatient with
      | looking since cause hdue =>
        obtain ⟨last, hlast, hle⟩ := hdue rfl
        refine ⟨⟨since, p, last, hp, ?_, hlast, hle, hn, ?_⟩, _, hq, hmissed⟩
        · rw [hlook, hd, hlast]
        · exact hs.sound.not_hasRaised hp (by rw [hlook]; rfl) hn
  · have hcaller : q.caller = .handing := congrArg Course.caller hnew
    rw [hcaller] at hc
    cases hc

/-- Once a run has raised the signal, a caller who has not given up never does. -/
theorem Reachable.never_gives_up (hs : s.Reachable) (hraised : s.HasRaised i)
    (hnot : ¬ s.HasGivenUp i) (ht : CrossCall.Reachable move (· = s) t) : ¬ t.HasGivenUp i := by
  have hkept : t.HasRaised i ∧ ¬ t.HasGivenUp i := by
    refine CrossCall.Reachable.keeps_from (P := fun t => t.HasRaised i ∧ ¬ t.HasGivenUp i) hs ?_
      ⟨hraised, hnot⟩ ht
    rintro u m v hu ⟨hraised, hnot⟩ hm
    refine ⟨hraised.move hm, fun hgiven => ?_⟩
    obtain ⟨⟨since, p, -, -, -, -, -, -, hvain⟩, -⟩ := Reachable.looksInVain hu hm hnot hgiven
    exact hvain hraised
  exact hkept.2

/-- Who gives up in a run does it by one move, and has given up ever after. -/
theorem Reachable.exists_lastLook (hs : s.Reachable) (ht : afterMoves move s ms = some t)
    (hnot : ¬ s.HasGivenUp i) (h : t.HasGivenUp i) :
    ∃ before m after u v since, ms = before ++ m :: after ∧ afterMoves move s before = some u ∧
      u.move m = some v ∧ afterMoves move v after = some t ∧ u.LooksInVain i since ∧
      ∀ ns w, afterMoves move v ns = some w → w.HasGivenUp i := by
  obtain ⟨before, m, after, u, v, hms, hu, hm, hv, hnotu, hgiven⟩ :=
    exists_turn (P := fun s => s.HasGivenUp i) ht hnot h
  have hur : u.Reachable := .trans hs (.of_afterMoves hu)
  obtain ⟨⟨since, hlook⟩, -⟩ := hur.looksInVain hm hnotu hgiven
  refine ⟨before, m, after, u, v, since, hms, hu, hm, hv, hlook, fun ns w hw => ?_⟩
  refine CrossCall.Reachable.keeps (P := fun s => s.HasGivenUp i) ?_ (.of_afterMoves hw)
    fun _ hst => hst ▸ hgiven
  exact fun s m t h hm => h.move hm

/-! ### Waits -/

/-- A wait under way goes on from when it began, within its bound, until the caller returns. -/
theorem Reachable.keeps_since {pc : CollectPc} (hp : s.parties[i]? = some p)
    (hc : p.caller = .collecting (some since) pc) (ht : CrossCall.Reachable move (· = s) t) :
    ∃ q, t.parties[i]? = some q ∧ q.bound = p.bound ∧
      ((∃ pc, q.caller = .collecting (some since) pc) ∨ ∃ outcome, q.caller = .returned outcome) := by
  refine CrossCall.Reachable.keeps (P := fun t => ∃ q, t.parties[i]? = some q ∧
    q.bound = p.bound ∧ ((∃ pc, q.caller = .collecting (some since) pc) ∨
      ∃ outcome, q.caller = .returned outcome)) ?_ ht fun _ hst => hst ▸ ⟨p, hp, rfl, .inl ⟨pc, hc⟩⟩
  rintro u m v ⟨q, hq, hbound, hstand⟩ hm
  obtain ⟨q', hq', -, -, hbound', -⟩ := move_follows m hq hm
  refine ⟨q', hq', hbound'.trans hbound, ?_⟩
  cases callerMove_of_move hm hq with
  | rest m r hr hsame =>
    obtain rfl := Option.some.inj (hq'.symm.trans hr)
    rwa [hsame]
  | accept hh => rw [hh] at hstand; obtain ⟨_, h⟩ | ⟨_, h⟩ := hstand <;> cases h
  | refuse error hh => rw [hh] at hstand; obtain ⟨_, h⟩ | ⟨_, h⟩ := hstand <;> cases h
  | step stray call caller hstep hv =>
    subst hv
    obtain rfl := Option.some.inj (hq'.symm.trans (parties_put hq call caller))
    obtain ⟨pc, h⟩ | ⟨outcome, h⟩ := hstand
    · exact hstep.keeps_since h
    · rw [h] at hstep
      cases hstep

theorem exists_begin (h₀ : s₀.isStart) (hs : afterMoves move s₀ ms = some s)
    (hp : s.parties[i]? = some p) {pc : CollectPc} (hc : p.caller = .collecting (some since) pc) :
    s₀.BeginsWait ms i since := by
  have hstart : ¬ ∃ p pc, s₀.parties[i]? = some p ∧ p.caller = .collecting (some since) pc := by
    rintro ⟨p, pc, hp, -⟩
    simp [h₀.1] at hp
  obtain ⟨before, m, after, u, v, hms, hu, hm, -, hnot, q, pc', hq, hqc⟩ :=
    exists_turn (P := fun s => ∃ p pc, s.parties[i]? = some p ∧
      p.caller = .collecting (some since) pc) hs hstart ⟨p, pc, hp, hc⟩
  have hur : u.Reachable := .trans (.start h₀) (.of_afterMoves hu)
  rcases hur.sound.move_party hm hq with ⟨p', hp', -, -⟩ | hnew
  · have hnotp : ∀ pc, p'.caller ≠ .collecting (some since) pc := fun pc h => hnot ⟨p', pc, hp', h⟩
    cases callerMove_of_move hm hp' with
    | rest m r hr hsame =>
      obtain rfl := Option.some.inj (hq.symm.trans hr)
      exact absurd (hsame ▸ hqc) (hnotp pc')
    | accept hh hv =>
      subst hv
      obtain rfl := Option.some.inj (hq.symm.trans (parties_modify_self _ hp'))
      cases hqc
    | refuse error hh hv =>
      subst hv
      obtain rfl := Option.some.inj (hq.symm.trans (parties_modify_self _ hp'))
      cases hqc
    | step stray call caller hstep hv =>
      have hqe := Option.some.inj (hq.symm.trans (hv ▸ parties_put hp' call caller))
      obtain ⟨harrive, hnow⟩ := hstep.begins (hur.patient i p' hp') hnotp (hqe ▸ hqc)
      exact ⟨before, stray, after, u, v, p', q, hms, hu, hm, hnow, hp', harrive, hq, pc', hqc⟩
  · have hcaller : q.caller = .handing := congrArg Course.caller hnew
    rw [hcaller] at hqc
    cases hqc

theorem hasGivenUp_of_returned (hp : s.parties[i]? = some p)
    (hc : p.caller = .returned (.error .timedOut)) : s.HasGivenUp i :=
  ⟨p, hp, by rw [hc]; rfl⟩

/-- A call within an infinite bound never times out, and neither does one whose deadline the clock
cannot tell, nor one that a run has been made of before its caller begins to wait, however short its
bound. A call that does time out began its wait when the clock showed some time, and at its last
look at the permits the deadline reckoned from then had come and no run had raised the signal. -/
theorem no_spurious_timeout (h₀ : s₀.isStart) (hs : afterMoves move s₀ ms = some s)
    (hp : s.parties[i]? = some p) :
    (p.bound = .infinite → p.caller ≠ .returned (.error .timedOut)) ∧
      (∀ since pc, p.caller = .collecting (some since) pc → p.bound.deadline since = none →
        ∀ ns t q, afterMoves move s ns = some t → t.parties[i]? = some q →
          q.caller ≠ .returned (.error .timedOut)) ∧
      (p.caller.isYetToWait → s.HasRaised i →
        ∀ ns t q, afterMoves move s ns = some t → t.parties[i]? = some q →
          q.caller ≠ .returned (.error .timedOut)) ∧
      (p.caller = .returned (.error .timedOut) →
        ∃ before m after u v since, ms = before ++ m :: after ∧
          afterMoves move s₀ before = some u ∧ u.move m = some v ∧
          afterMoves move v after = some s ∧ s₀.BeginsWait before i since ∧
          u.LooksInVain i since ∧ ∀ ns w, afterMoves move v ns = some w → w.HasGivenUp i) := by
  have hreach : s.Reachable := .trans (.start h₀) (.of_afterMoves hs)
  have hpatient := hreach.patient i p hp
  refine ⟨fun hb hc => ?_, fun since pc hc hnone ns t q ht hq hqc => ?_,
    fun hc hraised ns t q ht hq hqc => ?_, fun hc => ?_⟩
  · rw [hc, hb] at hpatient
    cases hpatient with
    | returned outcome hd =>
      obtain ⟨since, hdue⟩ := hd rfl
      exact WaitBound.not_isDue_infinite hdue
  · have hnot : ¬ s.HasGivenUp i := by
      rintro ⟨p', hp', hg⟩
      obtain rfl := Option.some.inj (hp.symm.trans hp')
      have hnever : ¬ p.bound.IsDue since s.now := by
        rintro ⟨deadline, hd, -⟩
        rw [hnone] at hd
        cases hd
      rw [hc] at hpatient hg
      cases hpatient with
      | lockingPhase since signaled hd =>
        cases signaled with
        | false => exact hnever (hd rfl)
        | true => cases hg
      | holdingPhase since signaled hd =>
        cases signaled with
        | false => exact hnever (hd rfl)
        | true => cases hg
      | _ => cases hg
    obtain ⟨before, m, after, u, v, since', -, hu, -, -, hlook, -⟩ :=
      hreach.exists_lastLook ht hnot (hasGivenUp_of_returned hq hqc)
    obtain ⟨r, deadline, hr, hrc, hrd, -⟩ := hlook
    obtain ⟨r', hr', hbound, hstand⟩ := Reachable.keeps_since hp hc (.of_afterMoves hu)
    obtain rfl := Option.some.inj (hr.symm.trans hr')
    rw [hrc] at hstand
    obtain ⟨_, h⟩ | ⟨_, h⟩ := hstand
    · cases h
      rw [hbound, hnone] at hrd
      cases hrd
    · cases h
  · have hnot : ¬ s.HasGivenUp i := by
      rintro ⟨p', hp', hg⟩
      obtain rfl := Option.some.inj (hp.symm.trans hp')
      generalize p.caller = caller at hc hg hpatient
      cases hpatient with
      | handing | arriving => cases hg
      | _ => cases hc
    obtain ⟨before, m, after, u, v, since, -, hu, -, -, ⟨r, -, -, -, -, -, -, hvain⟩, -⟩ :=
      hreach.exists_lastLook ht hnot (hasGivenUp_of_returned hq hqc)
    refine hvain (CrossCall.Reachable.keeps (P := fun s => s.HasRaised i) ?_ (.of_afterMoves hu)
      fun _ hst => hst ▸ hraised)
    exact fun s m t h hm => h.move hm
  · have hnot : ¬ s₀.HasGivenUp i := by
      rintro ⟨p, hp, -⟩
      simp [h₀.1] at hp
    obtain ⟨before, m, after, u, v, since, hms, hu, hm, hv, hlook, hgiven⟩ :=
      Reachable.exists_lastLook (.start h₀) hs hnot (hasGivenUp_of_returned hp hc)
    obtain ⟨q, deadline, hq, hqc, hrest⟩ := hlook
    exact ⟨before, m, after, u, v, since, hms, hu, hm, hv, exists_begin h₀ hu hq hqc,
      ⟨q, deadline, hq, hqc, hrest⟩, hgiven⟩

/-- A queue that runs the item before it answers, for a caller with a bound of nothing. -/
def runBeforeTheAnswer : List (Move Nat Nat) :=
  [.launch 0 7 (.within .zero), .take 0 0 false, .stepAttempt 0 0, .stepAttempt 0 0,
    .finish 0 (.ok 49)] ++ List.replicate 7 (.stepAttempt 0 0) ++ [.accept 0]

theorem no_spurious_timeout_run_before_the_answer :
    (∃ s : Scene Nat Nat, afterMoves move { strict := true } runBeforeTheAnswer = some s ∧
      s.HasRaised 0 ∧ ∀ ns t q, afterMoves move s ns = some t → t.parties[0]? = some q →
        q.caller ≠ .returned (.error .timedOut)) ∧
    ∃ before m after u since, givenUpWhileRunning = before ++ m :: after ∧
      afterMoves move { strict := true } before = some u ∧ u.LooksInVain 0 since := by
  have hran := no_spurious_timeout (i := 0) ⟨rfl, rfl, rfl⟩
    (show afterMoves move { strict := true } runBeforeTheAnswer = some _ from rfl) rfl
  have hleft := no_spurious_timeout (i := 0) ⟨rfl, rfl, rfl⟩
    (show afterMoves move { strict := true } givenUpWhileRunning = some _ from rfl) rfl
  refine ⟨⟨_, rfl, ⟨0, _, .ok 49, rfl, rfl, .ended⟩, ?_⟩, ?_⟩
  · exact hran.2.2.1 rfl ⟨0, _, .ok 49, rfl, rfl, .ended⟩
  · obtain ⟨before, m, after, u, v, since, hms, hu, -, -, -, hlook, -⟩ := hleft.2.2.2 rfl
    exact ⟨before, m, after, u, since, hms, hu, hlook⟩

end Scene
end CrossCall.Call
