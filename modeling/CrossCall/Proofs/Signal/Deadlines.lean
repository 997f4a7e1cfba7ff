import CrossCall.Proofs.Bounds
import CrossCall.Proofs.Signal.Permits

/-! How long a wait waits. The clock is read once, at the beginning, and whatever wakes the thread,
it waits for the deadline of then. A thread that has taken the lock has the count for itself until
it has looked, so that a permit it finds there is its own. -/

namespace CrossCall.Signal

namespace WaitPc

/-- What the wait takes for its deadline, once it has read the clock. -/
def deadline? : WaitPc → Option (Option Instant)
  | .arriving => none
  | .locking deadline _ | .looking deadline _ | .parked deadline => some deadline

def hasExpired : WaitPc → Bool
  | .locking _ .expiry | .looking _ .expiry => true
  | _ => false

end WaitPc

/-- A wait goes by the deadline from when it began, and by no other; and woken by the deadline, it
has run out. -/
def Stand.IsTimed (now : Instant) : Stand → Prop
  | .waiting bound since pc =>
    pc.deadline? = since.map bound.deadline ∧
      (pc.hasExpired → ∃ began, since = some began ∧ bound.IsDue began now)
  | _ => True

theorem Stand.IsTimed.mono {now later : Instant} {x : Stand} (h : x.IsTimed now)
    (hle : now ≤ later) : x.IsTimed later := by
  cases x with
  | waiting bound since pc =>
    refine ⟨h.1, fun he => ?_⟩
    obtain ⟨began, hs, hdue⟩ := h.2 he
    exact ⟨began, hs, hdue.mono hle⟩
  | _ => trivial

theorem Stand.IsTimed.exists_since {now : Instant} {bound : WaitBound} {since : Option Instant}
    {pc : WaitPc} (h : (Stand.waiting bound since pc).IsTimed now) (hpc : pc ≠ .arriving) :
    ∃ began, since = some began ∧ pc.deadline? = some (bound.deadline began) := by
  have hd := h.1
  cases since with
  | some began => exact ⟨began, rfl, hd⟩
  | none =>
    cases pc with
    | arriving => exact absurd rfl hpc
    | _ => cases hd

theorem Turn.isTimed {m : Moment} {s s' : Signal} {d d' : Deeds} {x x' : Stand}
    (h : Turn m s d x s' x' d') (hx : x.IsTimed m.now) : x'.IsTimed m.now := by
  cases h with
  | arrive bound since =>
    cases since with
    | none => exact ⟨rfl, nofun⟩
    | some began => cases hx.1
  | lockWait bound since deadline cause hh =>
    obtain ⟨began, rfl, -⟩ := hx.exists_since nofun
    refine ⟨hx.1, fun he => hx.2 ?_⟩
    cases cause with
    | expiry => rfl
    | _ => cases he
  | park bound since deadline cause hn hc =>
    obtain ⟨began, rfl, -⟩ := hx.exists_since nofun
    exact ⟨hx.1, nofun⟩
  | notice bound since deadline hm | stray bound since deadline hm hs =>
    obtain ⟨began, rfl, -⟩ := hx.exists_since nofun
    exact ⟨hx.1, nofun⟩
  | expire bound since deadline hm hd =>
    obtain ⟨began, rfl, hdeadline⟩ := hx.exists_since nofun
    obtain rfl := Option.some.inj hdeadline
    exact ⟨rfl, fun _ => ⟨began, rfl, WaitBound.isDue_of_any hd⟩⟩
  | _ => trivial

theorem Turn.permits {m : Moment} {s s' : Signal} {d d' : Deeds} {x x' : Stand}
    (h : Turn m s d x s' x' d') : s'.permits = s.permits ∨ x.holds := by
  cases h with
  | add | take | clear => exact .inr rfl
  | notify => exact .inl (notifyOne_permits ..)
  | _ => exact .inl rfl

namespace Scene

variable {s s₀ t v : Scene} {m : Move} {ms ns : List Move} {u : ThreadId} {stray woke : Bool}
  {pick : Nat} {x : Stand} {bound : WaitBound} {since deadline : Option Instant} {began : Instant}
  {pc : WaitPc} {cause : Cause}

def Timed (s : Scene) : Prop := ∀ stand ∈ s.threads, stand.IsTimed s.now

theorem timed_of_isStart (h : s.isStart) : s.Timed := by
  intro stand hm
  rw [h.2.2 stand hm]
  trivial

theorem Timed.move (h : s.Timed) (ht : s.move m = some t) : t.Timed := by
  cases m with
  | begin w operation =>
    simp only [Scene.move] at ht
    split at ht
    · obtain rfl := Option.some.inj ht
      intro stand hm
      rcases List.mem_or_eq_of_mem_set hm with hm | rfl
      · exact h stand hm
      · cases operation with
        | wait bound => exact ⟨rfl, fun h => absurd h Bool.false_ne_true⟩
        | _ => trivial
    · cases ht
  | step w stray pick =>
    obtain ⟨x, signal, x', deeds, hx, hturn, rfl⟩ := turn_of_move ht
    intro stand hm
    rcases List.mem_or_eq_of_mem_set hm with hm | rfl
    · exact h stand hm
    · exact hturn.isTimed (h x (List.mem_of_getElem? hx))
  | tick later =>
    obtain rfl := Option.some.inj ht
    exact fun stand hm => (h stand hm).mono (Nat.le_max_left ..)

theorem Reachable.timed (h : s.Reachable) : s.Timed :=
  CrossCall.Reachable.keeps (fun _ _ _ hs hm => hs.move hm) h fun _ hs => timed_of_isStart hs

/-! ### What the others do meanwhile -/

/-- Nobody but the thread itself moves it on in its operation. -/
theorem threads_of_other (hx : s.threads[u]? = some x) (hidle : x ≠ .idle)
    (hne : m.actor? ≠ some u) (h : s.move m = some t) : t.threads[u]? = some x := by
  cases m with
  | begin w operation =>
    simp only [move] at h
    split at h
    · next hw =>
      obtain rfl := Option.some.inj h
      refine (List.getElem?_set_ne ?_).trans hx
      rintro rfl
      exact hidle (Option.some.inj (hx.symm.trans hw))
    · cases h
  | step w stray pick =>
    obtain ⟨y, signal, y', deeds, -, -, rfl⟩ := turn_of_move h
    refine (List.getElem?_set_ne ?_).trans hx
    rintro rfl
    exact hne rfl
  | tick later =>
    obtain rfl := Option.some.inj h
    exact hx

theorem Sound.eq_of_holds (h : s.Sound) {w : ThreadId} {y : Stand} (hx : s.threads[u]? = some x)
    (hxh : x.holds) (hy : s.threads[w]? = some y) (hyh : y.holds) : w = u := by
  -- Without the one thread nobody holds the lock, so the other one is no other.
  have hcount := countP_set Stand.holds hx .idle
  rw [h.locked, hxh] at hcount
  have hzero : (s.threads.set u .idle).countP Stand.holds = 0 := by
    have hle := Bool.toNat_le s.signal.holder.isSome
    simp only [Stand.holds, Bool.toNat_true, Bool.toNat_false] at hcount
    omega
  by_cases hwu : w = u
  · exact hwu
  · have hw : (s.threads.set u .idle)[w]? = some y :=
      (List.getElem?_set_ne (Ne.symm hwu)).trans hy
    exact absurd hyh (List.countP_eq_zero.mp hzero y (List.mem_of_getElem? hw))

/-- While a thread holds the lock the count is left to it. -/
theorem Sound.permits_of_other (h : s.Sound) (hx : s.threads[u]? = some x) (hxh : x.holds)
    (hne : m.actor? ≠ some u) (ht : s.move m = some t) :
    t.signal.permits = s.signal.permits := by
  cases m with
  | begin w operation =>
    simp only [Scene.move] at ht
    split at ht
    · obtain rfl := Option.some.inj ht
      rfl
    · cases ht
  | step w stray pick =>
    obtain ⟨y, signal, y', deeds, hy, hturn, rfl⟩ := turn_of_move ht
    rcases hturn.permits with hp | hyh
    · exact hp
    · exact absurd (congrArg some (h.eq_of_holds hx hxh hy hyh)) hne
  | tick later =>
    obtain rfl := Option.some.inj ht
    rfl

theorem Sound.keeps_count (h : s.Sound) (hx : s.threads[u]? = some x) (hxh : x.holds)
    (hne : ∀ m ∈ ns, m.actor? ≠ some u) (ht : afterMoves Scene.move s ns = some t) :
    t.threads[u]? = some x ∧ t.signal.permits = s.signal.permits := by
  induction ns generalizing s with
  | nil => exact Option.some.inj ht ▸ ⟨hx, rfl⟩
  | cons m rest ih =>
    obtain ⟨v, hm, hv⟩ := Option.bind_eq_some_iff.mp ht
    obtain ⟨hne, hrest⟩ := List.forall_mem_cons.mp hne
    have hidle : x ≠ .idle := by
      rintro rfl
      cases hxh
    obtain ⟨hvx, hvp⟩ := ih (h.move hm) (threads_of_other hx hidle hne hm) hrest hv
    exact ⟨hvx, hvp.trans (h.permits_of_other hx hxh hne hm)⟩

theorem keeps_began (hx : s.threads[u]? = some (.waiting bound (some began) pc))
    (hall : AllAlong move (fun v => v.waits u) s ns) (ht : afterMoves move s ns = some t) :
    ∃ pc', t.threads[u]? = some (.waiting bound (some began) pc') := by
  induction ns generalizing s pc with
  | nil => exact Option.some.inj ht ▸ ⟨pc, hx⟩
  | cons m rest ih =>
    obtain ⟨v, hm, hv⟩ := Option.bind_eq_some_iff.mp ht
    have hrest := hall.2 v hm
    by_cases hu : m.actor? = some u
    · cases m with
      | step w stray pick =>
        obtain rfl := Option.some.inj hu
        rcases move_wait hx hm with ⟨signal, pc', -, rfl⟩ | ⟨signal, woke, -, rfl⟩
        · exact ih (getElem?_set_of_some hx _) hrest hv
        · obtain ⟨_, _, _, hw⟩ := waits_iff.mp hrest.head
          cases (getElem?_set_of_some hx .idle).symm.trans hw
      | _ => cases hu
    · exact ih (threads_of_other hx nofun hu hm) hrest hv

/-! ### The steps of a wait -/

theorem Timed.begins (h : s.Timed) (hx : s.threads[u]? = some (.waiting bound since .arriving))
    (ht : s.move (.step u stray pick) = some t) :
    t.threads[u]? =
      some (.waiting bound (some s.now) (.locking (bound.deadline s.now) .arrival)) := by
  have hsince := (h _ (List.mem_of_getElem? hx)).1
  cases since with
  | some began => cases hsince
  | none =>
    rcases move_wait hx ht with ⟨signal, pc', hw, rfl⟩ | ⟨signal, woke, hw, -⟩
    · cases waitStep_cases hw nofun with | arrive => exact getElem?_set_of_some hx _
    · cases waitStep_cases hw nofun

/-- A wait that has taken the lock and finds a permit there takes it, and answers true. -/
theorem answer?_of_looking
    (hx : s.threads[u]? = some (.waiting bound since (.looking deadline cause)))
    (hn : 0 < s.signal.permits) : s.answer? (.step u stray pick) = some true := by
  simp only [answer?, hx, waitStep, if_pos hn]

theorem answer?_of_expired
    (hx : s.threads[u]? = some (.waiting bound since (.looking deadline .expiry)))
    (hn : ¬ 0 < s.signal.permits) : s.answer? (.step u stray pick) = some false := by
  simp only [answer?, hx, waitStep, if_neg hn, if_true]

/-- The permit that is there when a wait takes the lock is still there when it looks. -/
theorem Reachable.finds (h : s.Reachable)
    (hx : s.threads[u]? = some (.waiting bound since (.locking deadline cause)))
    (ht : s.move (.step u stray pick) = some t) (hn : 0 < t.signal.permits)
    (hne : ∀ m ∈ ns, m.actor? ≠ some u) (hv : afterMoves move t ns = some v) (stray' : Bool)
    (pick' : Nat) : v.answer? (.step u stray' pick') = some true := by
  have htr : t.Reachable := .move _ h ht
  rcases move_wait hx ht with ⟨signal, pc', hw, rfl⟩ | ⟨signal, woke, hw, -⟩
  · cases waitStep_cases hw nofun with | lock _ _ hh => ?_
    obtain ⟨hvx, hvp⟩ := htr.sound.keeps_count (getElem?_set_of_some hx _) rfl hne hv
    exact answer?_of_looking hvx (hvp ▸ hn)
  · cases waitStep_cases hw nofun

theorem Timed.of_answer_false (h : s.Timed) (ha : s.answer? (.step u stray pick) = some false) :
    s.signal.permits = 0 ∧ ∃ span began,
      s.threads[u]? = some (.waiting (.within span) (some began)
        (.looking (some (began + span.nanos)) .expiry)) ∧
      began + span.nanos < Instant.limit ∧ began + span.nanos ≤ s.now := by
  obtain ⟨bound, since, pc, signal, hx, hw, -⟩ := answer?_cases ha
  cases waitStep_cases hw nofun with | miss deadline hn => ?_
  obtain ⟨hd, hexpired⟩ := h _ (List.mem_of_getElem? hx)
  obtain ⟨began, rfl, hdue⟩ := hexpired rfl
  obtain ⟨span, rfl, hlimit, hnow⟩ := hdue.within
  obtain rfl : deadline = some (began + span.nanos) := by
    rw [Option.some.inj hd, WaitBound.deadline, if_pos hlimit]
  exact ⟨hn, span, began, hx, hlimit, hnow⟩

/-- Woken before its deadline and without a permit, a wait parks again as it was. -/
theorem Timed.parks_again (h : s.Timed)
    (hx : s.threads[u]? = some (.waiting bound (some began) (.looking deadline cause)))
    (h0 : s.signal.permits = 0) (hdue : ¬ bound.IsDue began s.now)
    (ht : s.move (.step u stray pick) = some t) :
    t.threads[u]? = some (.waiting bound (some began) (.parked deadline)) := by
  rcases move_wait hx ht with ⟨signal, pc', hw, rfl⟩ | ⟨signal, woke, hw, -⟩
  · cases waitStep_cases hw nofun with | park => exact getElem?_set_of_some hx _
  · cases waitStep_cases hw nofun with
    | take _ _ hn => exact absurd h0 (Nat.ne_of_gt hn)
    | miss =>
      obtain ⟨_, hbegan, hdue'⟩ := (h _ (List.mem_of_getElem? hx)).2 rfl
      exact absurd (Option.some.inj hbegan ▸ hdue') hdue

/-- Parked, a wait that has run out needs nobody to wake it. -/
theorem Timed.expires (h : s.Timed)
    (hx : s.threads[u]? = some (.waiting bound (some began) (.parked deadline)))
    (hdue : bound.IsDue began s.now) (hn : u ∉ s.signal.notified) (stray : Bool) (pick : Nat) :
    ∃ t, s.move (.step u stray pick) = some t ∧
      t.threads[u]? = some (.waiting bound (some began) (.locking deadline .expiry)) := by
  obtain rfl := Option.some.inj (h _ (List.mem_of_getElem? hx)).1
  refine ⟨s.put u { s.signal with parked := s.signal.parked.erase u }
    (.waiting bound (some began) (.locking (bound.deadline began) .expiry)), ?_,
    getElem?_set_of_some hx _⟩
  simp only [Scene.move, hx, Option.bind_some, step, waitStep, if_neg hn, if_pos hdue.any]
  rfl

/-- A wait reads the clock once, when it begins, and keeps the deadline of then for as long as it
goes on. If it finds a permit when it takes the lock, it answers true in its next step, whatever
brought it there, whatever its bound is and whatever the others do meanwhile. It answers false only
if its bound is finite, its deadline can be told and has come, and it has just looked and seen no
permit; so a wait without a deadline never does. A wake-up before the deadline that finds no permit
sends it back to wait for the same deadline, and once that has come, no other wake-up is needed and
the look that follows is the last one. -/
theorem wait_keeps_to_its_bound (h₀ : s₀.isStart) (hs : afterMoves move s₀ ms = some s) :
    (∀ u bound since stray pick t, s.threads[u]? = some (.waiting bound since .arriving) →
        s.move (.step u stray pick) = some t →
        t.threads[u]? =
          some (.waiting bound (some s.now) (.locking (bound.deadline s.now) .arrival))) ∧
      (∀ u bound began pc ns t, s.threads[u]? = some (.waiting bound (some began) pc) →
        AllAlong move (fun v => v.waits u) s ns → afterMoves move s ns = some t →
        ∃ pc', t.threads[u]? = some (.waiting bound (some began) pc') ∧
          pc'.deadline? = some (bound.deadline began)) ∧
      (∀ u bound since deadline cause stray pick t,
        s.threads[u]? = some (.waiting bound since (.locking deadline cause)) →
        s.move (.step u stray pick) = some t → 0 < t.signal.permits →
        ∀ ns v, (∀ m ∈ ns, m.actor? ≠ some u) → afterMoves move t ns = some v →
          ∀ stray pick, v.answer? (.step u stray pick) = some true) ∧
      (∀ u stray pick, s.answer? (.step u stray pick) = some false →
        s.signal.permits = 0 ∧ ∃ span began,
          s.threads[u]? = some (.waiting (.within span) (some began)
            (.looking (some (began + span.nanos)) .expiry)) ∧
          began + span.nanos < Instant.limit ∧ began + span.nanos ≤ s.now) ∧
      (∀ u bound began pc stray pick, s.threads[u]? = some (.waiting bound (some began) pc) →
        bound.deadline began = none → s.answer? (.step u stray pick) ≠ some false) ∧
      (∀ u bound began deadline cause stray pick t,
        s.threads[u]? = some (.waiting bound (some began) (.looking deadline cause)) →
        s.signal.permits = 0 → ¬ bound.IsDue began s.now → s.move (.step u stray pick) = some t →
        t.threads[u]? = some (.waiting bound (some began) (.parked deadline))) ∧
      (∀ u bound began deadline stray pick,
        s.threads[u]? = some (.waiting bound (some began) (.parked deadline)) →
        bound.IsDue began s.now → u ∉ s.signal.notified →
        ∃ t, s.move (.step u stray pick) = some t ∧
          t.threads[u]? = some (.waiting bound (some began) (.locking deadline .expiry))) ∧
      ∀ u bound since deadline stray pick,
        s.threads[u]? = some (.waiting bound since (.looking deadline .expiry)) →
        ∃ woke, s.answer? (.step u stray pick) = some woke := by
  have hreach : s.Reachable := .trans (.start h₀) (.of_afterMoves hs)
  have htimed := hreach.timed
  refine ⟨fun u bound since stray pick t hx ht => htimed.begins hx ht,
    fun u bound began pc ns t hx hall ht => ?_,
    fun u bound since deadline cause stray pick t hx ht hn ns v hne hv stray' pick' =>
      hreach.finds hx ht hn hne hv stray' pick',
    fun u stray pick ha => htimed.of_answer_false ha,
    fun u bound began pc stray pick hx hnone ha => ?_,
    fun u bound began deadline cause stray pick t hx h0 hdue ht =>
      htimed.parks_again hx h0 hdue ht,
    fun u bound began deadline stray pick hx hdue hn => htimed.expires hx hdue hn stray pick,
    fun u bound since deadline stray pick hx => ?_⟩
  · obtain ⟨pc', hpc'⟩ := keeps_began hx hall ht
    have htr : t.Reachable := .trans hreach (.of_afterMoves ht)
    exact ⟨pc', hpc', (htr.timed _ (List.mem_of_getElem? hpc')).1⟩
  · obtain ⟨-, span, began', hx', hlimit, -⟩ := htimed.of_answer_false ha
    obtain ⟨rfl, hbegan, -⟩ := Stand.waiting.inj (Option.some.inj (hx.symm.trans hx'))
    obtain rfl := Option.some.inj hbegan
    rw [WaitBound.deadline, if_pos hlimit] at hnone
    cases hnone
  · by_cases hn : 0 < s.signal.permits
    · exact ⟨true, answer?_of_looking hx hn⟩
    · exact ⟨false, answer?_of_expired hx hn⟩

/-- A raise, and a wait with no time to spend that is kept waiting for the lock. -/
def lockedOut : List Move :=
  [.begin 1 .raise] ++ List.replicate 3 (.step 1 false 0) ++
    [.begin 1 .pending, .step 1 false 0, .begin 0 (.wait (.within .zero)), .step 0 false 0,
      .tick 5, .step 1 false 0]

theorem wait_keeps_to_its_bound_locked_out :
    ∃ s t : Scene, afterMoves move { threads := [.idle, .idle] } lockedOut = some s ∧
      s.threads[0]? = some (.waiting (.within .zero) (some 0) (.locking (some 0) .arrival)) ∧
      s.now = 5 ∧ s.move (.step 0 false 0) = some t ∧
      t.answer? (.step 0 false 0) = some true := by
  have hrun := wait_keeps_to_its_bound ⟨rfl, rfl, by decide⟩
    (show afterMoves move { threads := [.idle, .idle] } lockedOut = some _ from rfl)
  exact ⟨_, _, rfl, rfl, rfl, rfl,
    hrun.2.2.1 0 _ _ _ _ false 0 _ rfl rfl (by decide) [] _ nofun rfl false 0⟩

end Scene
end CrossCall.Signal
