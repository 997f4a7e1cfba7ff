import CrossCall.Proofs.Worker.Sound

/-! A worker runs what it accepted, all of it and in order, and nothing else. Every item that is
handed in is accepted or refused, once; the accepted ones are started one after another; and once
the worker is closed, what was accepted by then is all there will ever be. -/

namespace CrossCall.Worker

variable {ι : Type}

def handed (ms : List (Move ι)) : List ι := ms.flatMap Move.handed

namespace Scene

variable {s s₀ t : Scene ι} {m : Move ι} {ms ns : List (Move ι)}

def onTheirWay (s : Scene ι) : List ι := s.stands.filterMap Stand.item?

/-! ### Every item has one fate -/

/-- What was handed in was accepted, was refused or is on its way. -/
def Accounts [DecidableEq ι] (s : Scene ι) (handed : List ι) : Prop :=
  ∀ item, s.deeds.accepted.count item + s.deeds.refused.count item +
    s.onTheirWay.count item = handed.count item

theorem count_onTheirWay [DecidableEq ι] {before after : List (Stand ι)} {x : Stand ι}
    (h : s.stands = before ++ x :: after) (item : ι) :
    s.onTheirWay.count item = (before.filterMap Stand.item?).count item +
      x.item?.toList.count item + (after.filterMap Stand.item?).count item := by
  rw [onTheirWay, h, List.filterMap_append, List.filterMap_cons, List.count_append]
  cases x.item? with
  | none =>
    simp only [Option.toList, List.count_nil]
    omega
  | some y =>
    simp only [Option.toList, List.count_cons, List.count_nil]
    omega

theorem Accounts.drain [DecidableEq ι] {hs : List ι} (h : s.Accounts hs)
    (hthreads : t.threads = s.threads) (hin : s.drain.isCalm) (hout : t.drain.isCalm)
    (ha : t.deeds.accepted = s.deeds.accepted) (hr : t.deeds.refused = s.deeds.refused) :
    t.Accounts (hs ++ []) := by
  have hnil (drain : DrainStand ι) (hd : drain.isCalm) :
      drain.inside.toList.filterMap Stand.item? = [] := by
    rw [List.filterMap_eq_nil_iff]
    intro stand hm
    rw [DrainStand.mem_inside_of_isCalm hd hm]
    rfl
  have hsame : t.onTheirWay = s.onTheirWay := by
    rw [onTheirWay, onTheirWay, stands, stands, List.filterMap_append, List.filterMap_append,
      hnil _ hin, hnil _ hout, hthreads]
  intro item
  rw [ha, hr, hsame, List.append_nil]
  exact h item

theorem Accounts.step [DecidableEq ι] {hs hs' : List ι} (h : s.Accounts hs) (ht : s.Step t hs') :
    t.Accounts (hs ++ hs') := by
  cases ht with
  | turn m before after x x' hs ht hturn hd =>
    intro item
    have hitem := h item
    have hh := hturn.handed item
    rw [count_onTheirWay hs] at hitem
    rw [count_onTheirWay ht, List.append_nil]
    omega
  | begin before after operation hs ht hw hdeeds hd =>
    intro item
    have hitem := h item
    have hstand : operation.stand.item? = operation.item? := by cases operation <;> rfl
    rw [count_onTheirWay hs] at hitem
    rw [count_onTheirWay ht, hdeeds, hstand, List.count_append]
    simp only [Stand.item?, Option.toList, List.count_nil] at hitem ⊢
    omega
  | take item rest hd hi ht | leave hd hi ho ht | finish item unwound hd ht | charge unwound hd ht
  | settle hd ht | depart hd ht =>
    subst ht
    exact h.drain rfl (by rw [hd]; rfl) rfl rfl rfl

theorem Accounts.run [DecidableEq ι] {hs : List ι} (h : s.Accounts hs)
    (ht : afterMoves move s ms = some t) : t.Accounts (hs ++ handed ms) := by
  induction ms generalizing s hs with
  | nil =>
    obtain rfl := Option.some.inj ht
    rwa [handed, List.flatMap_nil, List.append_nil]
  | cons m rest ih =>
    obtain ⟨u, hm, hu⟩ := Option.bind_eq_some_iff.mp ht
    have hrest := ih (h.step (step_of_move hm)) hu
    rwa [List.append_assoc] at hrest

theorem accounts_of_isStart [DecidableEq ι] (h : s.isStart) : s.Accounts [] := by
  obtain ⟨-, hidle, hd, hdeeds⟩ := h
  have hnone : s.onTheirWay = [] := by
    rw [onTheirWay, stands, hd, List.filterMap_eq_nil_iff]
    intro stand hm
    rw [hidle stand (by simpa [DrainStand.inside] using hm)]
    rfl
  intro item
  rw [hnone, hdeeds]
  rfl

/-! ### What was done stays done -/

theorem Step.grows {hs : List ι} (h : s.Step t hs) :
    s.deeds.accepted <+: t.deeds.accepted ∧ s.deeds.refused <+: t.deeds.refused := by
  cases h with
  | turn m before after x x' hs ht hturn hd =>
    refine ⟨?_, hturn.refused⟩
    rcases hturn.accepted with ⟨-, ha⟩ | ⟨-, item, -, ha⟩
    · exact ha ▸ List.prefix_rfl
    · exact ha ▸ List.prefix_append _ _
  | begin before after operation hs ht hw hdeeds hd =>
    rw [hdeeds]
    exact ⟨List.prefix_rfl, List.prefix_rfl⟩
  | take item rest hd hi ht | leave hd hi ho ht | finish item unwound hd ht | charge unwound hd ht
  | settle hd ht | depart hd ht =>
    subst ht
    exact ⟨List.prefix_rfl, List.prefix_rfl⟩

theorem grows_run (h : CrossCall.Reachable move (· = s) t) :
    s.deeds.accepted <+: t.deeds.accepted ∧ s.deeds.refused <+: t.deeds.refused := by
  refine CrossCall.Reachable.keeps (P := fun t => s.deeds.accepted <+: t.deeds.accepted ∧
    s.deeds.refused <+: t.deeds.refused) ?_ h ?_
  · rintro u m v ⟨ha, hr⟩ hv
    obtain ⟨ha', hr'⟩ := (step_of_move hv).grows
    exact ⟨ha.trans ha', hr.trans hr'⟩
  · rintro u rfl
    exact ⟨List.prefix_rfl, List.prefix_rfl⟩

/-! ### A closed worker -/

/-- The worker is closed, with these items accepted: nobody who hands in an item has been let in,
and who takes the lock to do so finds it closed. -/
structure Closed (accepted : List ι) (t : Scene ι) : Prop where
  shut : t.worker.isOpen = false
  accepted : t.deeds.accepted = accepted
  outside : ∀ item pc, .enqueuing item pc ∈ t.stands → pc = .locking ∨ pc = .checking
  refuses : ∀ item m, enqueueStep item m t.worker .checking =
    .finished { t.worker with entrance := none } (.error .closed)

theorem Sound.closed (h : s.Sound) (ho : s.worker.isOpen = false) :
    s.Closed s.deeds.accepted := by
  refine ⟨ho, rfl, fun item pc hm => ?_, fun item m => ?_⟩
  · have hlet := h.letIn _ hm
    rw [ho] at hlet
    cases pc with
    | locking => exact .inl rfl
    | checking => exact .inr rfl
    | _ => cases hlet rfl
  · simp only [enqueueStep, if_neg (Bool.eq_false_iff.mp ho)]

/-- A worker that is closed stays closed, and accepts nothing. -/
theorem Sound.step_closed {hs : List ι} (h : s.Sound) (ho : s.worker.isOpen = false)
    (ht : s.Step t hs) : t.worker.isOpen = false ∧ t.deeds.accepted = s.deeds.accepted := by
  cases ht with
  | turn m before after x x' hs ht hturn hd =>
    refine ⟨?_, ?_⟩
    · rcases hturn.isOpen with he | ⟨he, -⟩
      · rw [he, ho]
      · exact he
    · rcases hturn.accepted with ⟨-, ha⟩ | ⟨hx, -⟩
      · exact ha
      · have hopen := h.letIn x (by simp [hs]) hx
        rw [ho] at hopen
        cases hopen
  | begin before after operation hs ht hw hdeeds hd => exact ⟨hw ▸ ho, by rw [hdeeds]⟩
  | charge unwound hd ht =>
    subst ht
    cases unwound <;> exact ⟨ho, rfl⟩
  | take item rest hd hi ht | leave hd hi ho' ht | finish item unwound hd ht | settle hd ht
  | depart hd ht =>
    subst ht
    exact ⟨ho, rfl⟩

theorem Reachable.closed (h : s.Reachable) (ho : s.worker.isOpen = false)
    (ht : CrossCall.Reachable move (· = s) t) : t.Closed s.deeds.accepted := by
  have hkept : t.worker.isOpen = false ∧ t.deeds.accepted = s.deeds.accepted := by
    refine CrossCall.Reachable.keeps_from (P := fun t => t.worker.isOpen = false ∧
      t.deeds.accepted = s.deeds.accepted) h ?_ ⟨ho, rfl⟩ ht
    rintro u m v hu ⟨huo, hua⟩ hv
    obtain ⟨hvo, hva⟩ := (Reachable.sound hu).step_closed huo (step_of_move hv)
    exact ⟨hvo, hva.trans hua⟩
  have htr : t.Sound := Reachable.sound (.trans h ht)
  exact hkept.2 ▸ htr.closed hkept.1

/-- What the worker has started is a prefix of what was accepted under the lock of the entrance, the
rest is in the queue, and one item runs at a time. Every item that is handed in is accepted or
refused, once. A worker that is closed stays closed and refuses; and when its thread has left the
loop, everything that was ever accepted has been run to its end, by itself or by a panic. Nobody who
was let in finds the thread gone. -/
theorem runs_what_it_accepted_in_order [DecidableEq ι] (h₀ : s₀.isStart)
    (hs : afterMoves move s₀ ms = some s) :
    s.deeds.accepted = s.deeds.started ++ s.worker.items ∧
      s.deeds.started = s.deeds.ended.map Prod.fst ++ s.drain.item?.toList ∧
      s.stands.countP Stand.holds ≤ 1 ∧
      s.Accounts (handed ms) ∧
      (∀ ns t item, afterMoves move s ns = some t → (handed (ms ++ ns)).count item = 1 →
        item ∈ s.deeds.refused → item ∉ t.deeds.started) ∧
      (∀ ns t, afterMoves move s ns = some t → s.deeds.accepted <+: t.deeds.accepted) ∧
      (s.worker.isOpen = false → ∀ ns t, afterMoves move s ns = some t →
        t.Closed s.deeds.accepted) ∧
      (s.drain.hasLeft → s.worker.isOpen = false ∧ s.deeds.started = s.deeds.accepted ∧
        s.deeds.ended.map Prod.fst = s.deeds.accepted) ∧
      ∀ item, .enqueuing item .rollingBack ∉ s.stands := by
  have hreach : s.Reachable := .trans (.start h₀) (.of_afterMoves hs)
  have hsound := hreach.sound
  have haccounts := (accounts_of_isStart h₀).run hs
  rw [List.nil_append] at haccounts
  refine ⟨hsound.fifo, hsound.turns, ?_, haccounts, fun ns t item ht hone hrefused hstarted => ?_,
    fun ns t ht => (grows_run (.of_afterMoves ht)).1,
    fun ho ns t ht => hreach.closed ho (.of_afterMoves ht), fun hleft => ?_,
    fun item hm => hsound.steady _ hm item rfl⟩
  · rw [hsound.locked]
    exact Bool.toNat_le _
  · -- Started and refused, the item would have been handed in twice.
    have ht₀ : afterMoves move s₀ (ms ++ ns) = some t := by
      rw [afterMoves_append, hs]
      exact ht
    have hitem := (accounts_of_isStart h₀).run ht₀ item
    have htsound : t.Sound := Reachable.sound (.trans (.start h₀) (.of_afterMoves ht₀))
    have haccepted : item ∈ t.deeds.accepted := by
      rw [htsound.fifo]
      exact List.mem_append_left _ hstarted
    have hr := List.count_pos_iff.mpr ((grows_run (.of_afterMoves ht)).2.subset hrefused)
    have ha := List.count_pos_iff.mpr haccepted
    rw [List.nil_append, hone] at hitem
    omega
  · obtain ⟨ho, hi⟩ := hsound.left hleft
    have hfifo := hsound.fifo
    rw [hi, List.append_nil] at hfifo
    refine ⟨ho, hfifo.symm, ?_⟩
    have hnone : s.drain.item? = none := by
      cases hd : s.drain <;> first | rfl | (rw [hd] at hleft; cases hleft)
    have hturns := hsound.turns
    rw [hnone, Option.toList, List.append_nil] at hturns
    rw [hfifo, hturns]

/-- Two items, of which the first closes the worker and unwinds, and a third that comes too late. -/
def closedFromInside : List (Move Nat) :=
  [.begin 0 (.enqueue 7)] ++ List.replicate 4 (.step 0) ++ [.begin 1 (.enqueue 8)] ++
    List.replicate 4 (.step 1) ++ [.drain, .beginInside .exit, .stepInside, .stepInside,
    .begin 0 (.enqueue 9), .step 0, .step 0, .finish true, .drain, .drain, .drain, .finish false,
    .drain, .drain, .drain, .drain]

theorem runs_what_it_accepted_in_order_closed_from_inside :
    ∃ s : Scene Nat,
      afterMoves move { worker := { name := "w", thread := 2 }, threads := [.idle, .idle] }
        closedFromInside = some s ∧
      s.deeds.refused = [9] ∧ s.deeds.accepted = [7, 8] ∧ s.deeds.started = s.deeds.accepted := by
  have hrun := runs_what_it_accepted_in_order
    ⟨⟨"w", 2, rfl, by decide⟩, by decide, rfl, rfl⟩
    (show afterMoves move { worker := { name := "w", thread := 2 }, threads := [.idle, .idle] }
      closedFromInside = some _ from rfl)
  obtain ⟨-, -, -, -, -, -, -, hleft, -⟩ := hrun
  exact ⟨_, rfl, rfl, rfl, (hleft rfl).2.1⟩

end Scene
end CrossCall.Worker
