import CrossCall.Proofs.Signal.Sound

/-! Where the permits go. A permit that was raised is there until a wait takes it or a reset drops
it, and each wait that answers true has taken one of its own. To tell them apart the permits are
numbered in the order in which they were raised, and a wait takes the oldest one. -/

namespace CrossCall.Signal

theorem addPermit_of_lt {n : Nat} (h : n < capacity) : addPermit n = n + 1 := Nat.min_eq_left h

theorem addPermit_capacity : addPermit capacity = capacity := Nat.min_eq_right (Nat.le_succ _)

theorem permits_of_going {bound : WaitBound} {m : Moment} {s s' : Signal} {pc pc' : WaitPc}
    (h : waitStep bound m s pc = .going s' pc') : s'.permits = s.permits := by
  cases waitStep_cases h nofun <;> rfl

theorem permits_of_finished {bound : WaitBound} {m : Moment} {s s' : Signal} {pc : WaitPc}
    {woke : Bool} (h : waitStep bound m s pc = .finished s' woke) :
    s'.permits + woke.toNat = s.permits := by
  cases waitStep_cases h nofun with
  | take deadline cause hn => exact Nat.sub_add_cancel hn
  | miss deadline hn => rfl

def Move.actor? : Move → Option ThreadId
  | .step u _ _ => some u
  | _ => none

theorem Turn.taken {m : Moment} {s s' : Signal} {d d' : Deeds} {x x' : Stand}
    (h : Turn m s d x s' x' d') (hx : ¬ x.isWaiting) : d'.taken = d.taken := by
  cases h with
  | add =>
    unfold Deeds.raise
    split <;> rfl
  | take | miss => exact absurd rfl hx
  | _ => rfl

namespace Scene

variable {s s₀ t v : Scene} {m : Move} {ms ns : List Move} {u : ThreadId} {stray : Bool}
  {pick : Nat} {x : Stand}

theorem turn_of_move (h : s.move (.step u stray pick) = some t) :
    ∃ x signal x' deeds, s.threads[u]? = some x ∧
      Turn ⟨u, s.now, stray, pick⟩ s.signal s.deeds x signal x' deeds ∧
      t = { s.put u signal x' with deeds } := by
  obtain ⟨x, hx, hstep⟩ := Option.bind_eq_some_iff.mp h
  obtain ⟨signal, x', deeds, hturn, ht⟩ := step_cases hstep
  exact ⟨x, signal, x', deeds, hx, hturn, ht⟩

/-- A raise that has come to the count finds room for its permit, or the count is full and stays
so. -/
theorem Sound.raise (h : s.Sound) (hx : s.threads[u]? = some (.raising .adding))
    (ht : s.move (.step u stray pick) = some t) :
    s.signal.permits < capacity ∧ t.signal.permits = s.signal.permits + 1 ∧
        t.deeds = { s.deeds with raised := s.deeds.raised + 1 } ∨
      s.signal.permits = capacity ∧ t.signal.permits = capacity ∧
        t.deeds = { s.deeds with lost := s.deeds.lost + 1 } := by
  obtain ⟨x, signal, x', deeds, hx', hturn, rfl⟩ := turn_of_move ht
  obtain rfl := Option.some.inj (hx.symm.trans hx')
  cases hturn with | add => ?_
  by_cases hn : s.signal.permits < capacity
  · exact .inl ⟨hn, addPermit_of_lt hn, if_pos hn⟩
  · have hfull : s.signal.permits = capacity := Nat.le_antisymm h.permits_le (Nat.le_of_not_lt hn)
    refine .inr ⟨hfull, ?_, if_neg hn⟩
    show addPermit s.signal.permits = capacity
    rw [hfull, addPermit_capacity]

/-! ### What a wait takes -/

/-- What a wait answers, if one ends in this move. -/
def answer? (s : Scene) : Move → Option Bool
  | .step u stray pick =>
    match s.threads[u]? with
    | some (.waiting bound _ pc) =>
      match waitStep bound ⟨u, s.now, stray, pick⟩ s.signal pc with
      | .finished _ woke => some woke
      | _ => none
    | _ => none
  | _ => none

def waits (u : ThreadId) (s : Scene) : Bool := s.threads[u]?.any Stand.isWaiting

/-- How many permits the steps of thread `u` have taken away on the way. -/
def spent (u : ThreadId) : Scene → List Move → Nat
  | _, [] => 0
  | s, m :: rest =>
    match s.move m with
    | none => 0
    | some t =>
      (if m.actor? = some u then s.signal.permits - t.signal.permits else 0) + spent u t rest

theorem move_wait {bound : WaitBound} {since : Option Instant} {pc : WaitPc}
    (hx : s.threads[u]? = some (.waiting bound since pc))
    (h : s.move (.step u stray pick) = some t) :
    (∃ signal pc', waitStep bound ⟨u, s.now, stray, pick⟩ s.signal pc = .going signal pc' ∧
      t = s.put u signal (.waiting bound (since.getD s.now) pc')) ∨
    ∃ signal woke, waitStep bound ⟨u, s.now, stray, pick⟩ s.signal pc = .finished signal woke ∧
      t = { s.put u signal .idle with deeds := s.deeds.wait woke } := by
  simp only [move, hx, Option.bind_some, step] at h
  split at h
  · cases h
  · next signal pc' hw => exact .inl ⟨signal, pc', hw, (Option.some.inj h).symm⟩
  · next signal woke hw => exact .inr ⟨signal, woke, hw, (Option.some.inj h).symm⟩

theorem answer?_cases {woke : Bool} (h : s.answer? (.step u stray pick) = some woke) :
    ∃ bound since pc signal, s.threads[u]? = some (.waiting bound since pc) ∧
      waitStep bound ⟨u, s.now, stray, pick⟩ s.signal pc = .finished signal woke ∧
      s.move (.step u stray pick) =
        some { s.put u signal .idle with deeds := s.deeds.wait woke } := by
  simp only [answer?] at h
  split at h
  · next bound since pc hx =>
    split at h
    · next signal woke' hw =>
      obtain rfl := Option.some.inj h
      refine ⟨bound, since, pc, signal, hx, hw, ?_⟩
      simp only [move, hx, Option.bind_some, step, hw]
    · cases h
  · cases h

theorem waits_iff : s.waits u ↔
    ∃ bound since pc, s.threads[u]? = some (.waiting bound since pc) := by
  unfold waits
  cases s.threads[u]? with
  | none => exact iff_of_false nofun nofun
  | some x =>
    cases x with
    | waiting bound since pc => exact iff_of_true rfl ⟨bound, since, pc, rfl⟩
    | _ => exact iff_of_false nofun nofun

/-- The waits that have taken a permit are those that have answered true. -/
theorem taken_of_move (h : s.move m = some t) :
    t.deeds.taken = s.deeds.taken + (s.answer? m == some true).toNat := by
  cases m with
  | begin u operation =>
    simp only [move] at h
    split at h
    · obtain rfl := Option.some.inj h
      rfl
    · cases h
  | tick later =>
    obtain rfl := Option.some.inj h
    rfl
  | step u stray pick =>
    obtain ⟨x, signal, x', deeds, hx, hturn, ht⟩ := turn_of_move h
    cases x with
    | waiting bound since pc =>
      rcases move_wait hx h with ⟨signal, pc', hw, rfl⟩ | ⟨signal, woke, hw, rfl⟩
      · simp only [answer?, hx, hw]
        rfl
      · simp only [answer?, hx, hw]
        cases woke <;> rfl
    | _ =>
      subst ht
      simp only [answer?, hx]
      exact hturn.taken Bool.false_ne_true

/-- A wait that goes on after a step of its own has taken nothing in it. -/
theorem permits_of_waits (hs : s.waits u) (ht : t.waits u)
    (h : s.move (.step u stray pick) = some t) : t.signal.permits = s.signal.permits := by
  obtain ⟨bound, since, pc, hx⟩ := waits_iff.mp hs
  rcases move_wait hx h with ⟨signal, pc', hw, rfl⟩ | ⟨signal, woke, hw, rfl⟩
  · exact permits_of_going hw
  · obtain ⟨bound', since', pc', hx'⟩ := waits_iff.mp ht
    cases (getElem?_set_of_some hx .idle).symm.trans hx'

theorem spent_of_waits (hall : AllAlong move (fun v => v.waits u) s ns)
    (ht : afterMoves move s ns = some t) : spent u s ns = 0 := by
  induction ns generalizing s with
  | nil => rfl
  | cons m rest ih =>
    obtain ⟨v, hm, hv⟩ := Option.bind_eq_some_iff.mp ht
    have hrest := hall.2 v hm
    simp only [spent, hm, ih hrest hv, Nat.add_zero, ite_eq_right_iff]
    intro hactor
    cases m with
    | step w stray pick =>
      obtain rfl := Option.some.inj hactor
      rw [permits_of_waits hall.1 hrest.head hm, Nat.sub_self]
    | _ => cases hactor

theorem spent_append (ht : afterMoves move s ms = some t) (ns : List Move) :
    spent u s (ms ++ ns) = spent u s ms + spent u t ns := by
  induction ms generalizing s with
  | nil =>
    obtain rfl := Option.some.inj ht
    exact (Nat.zero_add _).symm
  | cons m rest ih =>
    obtain ⟨v, hm, hv⟩ := Option.bind_eq_some_iff.mp ht
    simp only [List.cons_append, spent, hm, ih hv, Nat.add_assoc]

/-- A wait that answers true has taken one permit, and one that answers false has taken none. -/
theorem spent_of_answer {woke : Bool} (hall : AllAlong move (fun v => v.waits u) s ns)
    (ht : afterMoves move s ns = some t) (ha : t.answer? (.step u stray pick) = some woke) :
    spent u s (ns ++ [.step u stray pick]) = woke.toNat := by
  obtain ⟨bound, since, pc, signal, -, hw, hm⟩ := answer?_cases ha
  have hpermits := permits_of_finished hw
  rw [spent_append ht, spent_of_waits hall ht, Nat.zero_add]
  simp only [spent, hm, Move.actor?, if_true, Nat.add_zero]
  show t.signal.permits - signal.permits = woke.toNat
  omega

end Scene

/-! ### The permits by their numbers -/

/-- The permits, each with its number, the ones still there with the oldest first. -/
structure Purse where
  pending : List Nat := []
  /-- One for each wait that has answered true. -/
  taken : List Nat := []
  dropped : List Nat := []
  deriving DecidableEq

namespace Purse

def take (p : Purse) : Purse :=
  { p with pending := p.pending.drop 1, taken := p.taken ++ p.pending.take 1 }

/-- A thread that stands here takes a step, at a signal with so many permits. -/
def step (p : Purse) (permits : Nat) (d : Deeds) : Stand → Purse
  | .raising .adding =>
    if permits < capacity then { p with pending := p.pending ++ [d.raised] } else p
  | .waiting _ _ (.looking _ _) => p.take
  | .resetting .holding => { p with pending := [], dropped := p.dropped ++ p.pending }
  | _ => p

def move (p : Purse) (s : Scene) : Move → Purse
  | .step u _ _ => s.threads[u]?.elim p (p.step s.signal.permits s.deeds)
  | _ => p

def after (p : Purse) : Scene → List Move → Purse
  | _, [] => p
  | s, m :: rest =>
    match s.move m with
    | none => p
    | some t => (p.move s m).after t rest

/-- The numbers are told apart, and there are as many as are counted. -/
structure Fits (p : Purse) (permits : Nat) (d : Deeds) : Prop where
  pending : p.pending.length = permits
  taken : p.taken.length = d.taken
  dropped : p.dropped.length = d.cleared
  numbers : (p.pending ++ p.taken ++ p.dropped).Perm (List.range d.raised)

section Steps

variable {p : Purse} {n : Nat} {d d' : Deeds}

theorem Fits.raise (h : p.Fits n d) (hn : n < capacity) :
    Fits { p with pending := p.pending ++ [d.raised] } (addPermit n) (d.raise n) := by
  have hnew : (p.pending ++ [d.raised] ++ p.taken ++ p.dropped).Perm
      (d.raised :: (p.pending ++ p.taken ++ p.dropped)) := by
    simp only [List.append_assoc, List.singleton_append]
    exact List.perm_middle
  rw [addPermit_of_lt hn, Deeds.raise, if_pos hn]
  refine ⟨?_, h.taken, h.dropped, ?_⟩
  · rw [List.length_append, h.pending]
    rfl
  · rw [List.range_succ]
    exact hnew.trans ((h.numbers.cons _).trans (List.perm_append_singleton _ _).symm)

theorem Fits.take (h : p.Fits n d) (hn : 0 < n) : p.take.Fits (n - 1) (d.wait true) := by
  have hpending := h.pending
  obtain ⟨k, rest, hp⟩ := List.exists_cons_of_length_pos (hpending ▸ hn)
  have hnumbers := h.numbers
  rw [hp] at hnumbers hpending
  simp only [Purse.take, hp, List.drop_one, List.tail_cons, List.take_one, List.head?_cons,
    Option.toList]
  refine ⟨Nat.eq_sub_of_add_eq hpending, ?_, h.dropped, ?_⟩
  · rw [List.length_append, h.taken]
    rfl
  · refine List.Perm.trans ?_ hnumbers
    simp only [List.append_assoc, List.cons_append]
    rw [← List.append_assoc, ← List.append_assoc]
    exact List.perm_middle

theorem Fits.take_eq (h : p.Fits 0 d) : p.take = p := by
  have hp : p.pending = [] := List.eq_nil_of_length_eq_zero h.pending
  cases p
  simp_all [Purse.take]

theorem Fits.clear (h : p.Fits n d) :
    Fits { p with pending := [], dropped := p.dropped ++ p.pending } 0 (d.reset n) := by
  refine ⟨rfl, h.taken, ?_, List.Perm.trans ?_ h.numbers⟩
  · rw [List.length_append, h.dropped, h.pending]
    rfl
  · rw [List.nil_append, ← List.append_assoc, List.append_assoc p.pending]
    exact List.perm_append_comm

theorem Fits.turn {m : Moment} {s s' : Signal} {x x' : Stand} (h : p.Fits s.permits d)
    (hs : s.permits ≤ capacity) (ht : Turn m s d x s' x' d') :
    (p.step s.permits d x).Fits s'.permits d' := by
  cases ht with
  | add =>
    by_cases hn : s.permits < capacity
    · rw [step, if_pos hn]
      exact h.raise hn
    · have hfull : s.permits = capacity := Nat.le_antisymm hs (Nat.le_of_not_lt hn)
      rw [step, if_neg hn, Deeds.raise, if_neg hn]
      refine ⟨?_, h.taken, h.dropped, h.numbers⟩
      rw [h.pending, hfull, addPermit_capacity]
  | notify =>
    rw [notifyOne_permits]
    exact h
  | take bound since deadline cause hn => exact h.take hn
  | miss bound since deadline hn | park bound since deadline cause hn hc =>
    rw [hn] at h
    rw [step, h.take_eq, hn]
    exact ⟨h.pending, h.taken, h.dropped, h.numbers⟩
  | clear => exact h.clear
  | _ => exact h

/-- What a wait has taken stays with it. -/
theorem taken_step (p : Purse) (n : Nat) (d : Deeds) (x : Stand) :
    p.taken <+: (p.step n d x).taken := by
  unfold step
  split
  · split <;> exact List.prefix_rfl
  · exact List.prefix_append _ _
  · exact List.prefix_rfl
  · exact List.prefix_rfl

/-- But for resets, a permit goes nowhere but to a wait. -/
theorem mem_step {x : Stand} (hx : x.operation ≠ some .reset) {k : Nat} (hk : k ∈ p.pending) :
    k ∈ (p.step n d x).pending ∨ k ∈ (p.step n d x).taken := by
  unfold step
  split
  · split
    · exact .inl (List.mem_append_left _ hk)
    · exact .inl hk
  · rw [← List.take_append_drop 1 p.pending, List.mem_append] at hk
    exact hk.symm.imp id (List.mem_append_right _)
  · exact absurd rfl hx
  · exact .inl hk

/-- With nobody there to take it or to drop it, a permit stays where it is. -/
theorem pending_step {x : Stand} (hx : x.operation ≠ some .reset) (hw : ¬ x.isWaiting) :
    p.pending <+: (p.step n d x).pending := by
  unfold step
  split
  · split
    · exact List.prefix_append _ _
    · exact List.prefix_rfl
  · exact absurd rfl hw
  · exact absurd rfl hx
  · exact List.prefix_rfl

end Steps

section Runs

variable {p : Purse} {s t : Scene} {m : Move} {ms : List Move}

theorem fits_of_isStart (h : s.isStart) : Fits {} s.signal.permits s.deeds := by
  obtain ⟨hs, hd, -⟩ := h
  rw [hs, hd]
  exact ⟨rfl, rfl, rfl, .refl _⟩

theorem Fits.move (h : p.Fits s.signal.permits s.deeds) (hs : s.Sound) (ht : s.move m = some t) :
    (p.move s m).Fits t.signal.permits t.deeds := by
  cases m with
  | begin u operation =>
    simp only [Scene.move] at ht
    split at ht
    · obtain rfl := Option.some.inj ht
      exact ⟨h.pending, h.taken, h.dropped, h.numbers⟩
    · cases ht
  | step u stray pick =>
    obtain ⟨x, signal, x', deeds, hx, hturn, rfl⟩ := Scene.turn_of_move ht
    rw [Purse.move, hx]
    exact h.turn hs.permits_le hturn
  | tick later =>
    obtain rfl := Option.some.inj ht
    exact h

theorem Fits.after (h : p.Fits s.signal.permits s.deeds) (hs : s.Sound)
    (ht : afterMoves Scene.move s ms = some t) : (p.after s ms).Fits t.signal.permits t.deeds := by
  induction ms generalizing s p with
  | nil =>
    obtain rfl := Option.some.inj ht
    exact h
  | cons m rest ih =>
    obtain ⟨u, hm, hu⟩ := Option.bind_eq_some_iff.mp ht
    simp only [Purse.after, hm]
    exact ih (h.move hs hm) (hs.move hm) hu

/-- What no step of a thread breaks, as long as the threads stand in such places, no run does. -/
theorem after_keeps {ok : Stand → Prop} {K : Purse → Prop}
    (hstep : ∀ p n d x, ok x → K p → K (p.step n d x))
    (hall : AllAlong Scene.move (fun v => ∀ stand ∈ v.threads, ok stand) s ms) (hp : K p) :
    K (p.after s ms) := by
  induction ms generalizing s p with
  | nil => exact hp
  | cons m rest ih =>
    simp only [Purse.after]
    cases hm : s.move m with
    | none => exact hp
    | some t =>
      refine ih (hall.2 t hm) ?_
      cases m with
      | step u stray pick =>
        simp only [Purse.move]
        cases hx : s.threads[u]? with
        | none => exact hp
        | some x => exact hstep p _ _ x (hall.1 x (List.mem_of_getElem? hx)) hp
      | _ => exact hp

end Runs

end Purse

namespace Scene

variable {s s₀ : Scene} {ms : List Move}

/-- Whatever threads do with a signal, in whatever turns: every permit that was raised is there, was
taken by a wait or was dropped by a reset. A raise adds its permit unless the count is full, and
then leaves it full. A wait answers true after it has taken one permit in all, and false after it
has taken none; and as the numbers show no permit is taken twice, or comes back. There are no more
true answers than raises, and a permit stays until a wait takes it or a reset drops it. -/
theorem permits_are_conserved (h₀ : s₀.isStart) (hs : afterMoves move s₀ ms = some s) :
    s.signal.permits + s.deeds.taken + s.deeds.cleared = s.deeds.raised ∧
      s.deeds.raised + s.deeds.lost + s.threads.countP Stand.isRaising =
        s.deeds.begun.count .raise ∧
      s.deeds.taken ≤ s.deeds.begun.count .raise ∧
      (∀ u stray pick t, s.threads[u]? = some (.raising .adding) →
        s.move (.step u stray pick) = some t →
        s.signal.permits < capacity ∧ t.signal.permits = s.signal.permits + 1 ∧
            t.deeds = { s.deeds with raised := s.deeds.raised + 1 } ∨
          s.signal.permits = capacity ∧ t.signal.permits = capacity ∧
            t.deeds = { s.deeds with lost := s.deeds.lost + 1 }) ∧
      (∀ m t, s.move m = some t →
        t.deeds.taken = s.deeds.taken + (s.answer? m == some true).toNat) ∧
      (∀ u ns t stray pick woke, AllAlong move (fun v => v.waits u) s ns →
        afterMoves move s ns = some t → t.answer? (.step u stray pick) = some woke →
        spent u s (ns ++ [.step u stray pick]) = woke.toNat) ∧
      (Purse.after {} s₀ ms).Fits s.signal.permits s.deeds ∧
      ∀ p : Purse, p.Fits s.signal.permits s.deeds → ∀ ns t, afterMoves move s ns = some t →
        (p.after s ns).Fits t.signal.permits t.deeds ∧ p.taken <+: (p.after s ns).taken ∧
          (AllAlong move (fun v => ∀ x ∈ v.threads, x.operation ≠ some .reset) s ns →
            ∀ k ∈ p.pending, k ∈ (p.after s ns).pending ∨ k ∈ (p.after s ns).taken) ∧
          (AllAlong move (fun v => ∀ x ∈ v.threads, x.operation ≠ some .reset ∧ ¬ x.isWaiting)
            s ns → p.pending <+: (p.after s ns).pending) := by
  have hstart : s₀.Sound := sound_of_isStart h₀
  have hsound : s.Sound := Reachable.sound (.trans (.start h₀) (.of_afterMoves hs))
  have hledger := hsound.ledger
  have hraises := hsound.raises
  refine ⟨hledger, hraises, by omega, fun u stray pick t hx ht => hsound.raise hx ht,
    fun m t ht => taken_of_move ht,
    fun u ns t stray pick woke hall ht ha => spent_of_answer hall ht ha,
    (Purse.fits_of_isStart h₀).after hstart hs, fun p hp ns t ht =>
      ⟨hp.after hsound ht, ?_, fun hall k hk => ?_, fun hall => ?_⟩⟩
  · refine Purse.after_keeps (K := fun q => p.taken <+: q.taken) ?_
      (AllAlong.of_forall fun v stand _ => trivial) List.prefix_rfl
    exact fun q n d x _ hq => hq.trans (Purse.taken_step q n d x)
  · refine Purse.after_keeps (K := fun q => k ∈ q.pending ∨ k ∈ q.taken) ?_ hall (.inl hk)
    rintro q n d x hx (hq | hq)
    · exact Purse.mem_step hx hq
    · exact .inr ((Purse.taken_step q n d x).subset hq)
  · refine Purse.after_keeps (K := fun q => p.pending <+: q.pending) ?_ hall List.prefix_rfl
    rintro q n d x ⟨hx, hw⟩ hq
    exact hq.trans (Purse.pending_step hx hw)

/-- Two raises with nobody waiting, and a wait with no time to spend. -/
def raisedBefore : List Move :=
  [.begin 0 .raise, .begin 1 .raise] ++ List.replicate 3 (.step 0 false 0) ++
    List.replicate 3 (.step 1 false 0) ++ [.begin 0 (.wait (.within .zero))]

theorem permits_are_conserved_raised_before :
    ∃ s t : Scene, afterMoves move { threads := [.idle, .idle] } raisedBefore = some s ∧
      s.signal.permits = 2 ∧
      afterMoves move s (List.replicate 2 (.step 0 false 0)) = some t ∧
      t.answer? (.step 0 false 0) = some true ∧
      spent 0 s (List.replicate 2 (.step 0 false 0) ++ [.step 0 false 0]) = 1 := by
  have hrun := permits_are_conserved ⟨rfl, rfl, by decide⟩
    (show afterMoves move { threads := [.idle, .idle] } raisedBefore = some _ from rfl)
  obtain ⟨-, -, -, -, -, hspent, -⟩ := hrun
  exact ⟨_, _, rfl, rfl, rfl, rfl, hspent 0 _ _ false 0 true (by decide) rfl rfl⟩

end Scene
end CrossCall.Signal
