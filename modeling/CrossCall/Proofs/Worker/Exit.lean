import CrossCall.Proofs.Worker.Counters
import CrossCall.Proofs.Worker.Order

/-! What an exit finds when it returns. The first exit to come to the join takes it over and waits
for the worker's thread to end. An exit that comes while it does so has nothing to join: it returns
at once, and items may still run. On the worker's own thread an exit closes the worker and joins
nothing. -/

namespace CrossCall.Worker

variable {ι : Type}

def Stand.isExiting : Stand ι → Bool
  | .closing _ | .joining _ => true
  | _ => false

namespace Turn

variable {m : Moment} {w w' : Worker ι} {d d' : Deeds ι} {x x' : Stand ι}

theorem thread (h : Turn m w d x w' x' d') : w'.thread = w.thread := by
  cases h <;> rfl

/-- The join is taken over once, by a thread that stays in it until the worker's thread has ended. -/
theorem joinable (h : Turn m w d x w' x' d') :
    w'.joinable = w.joinable ∨ w'.joinable = false ∧ x' = .joining .joining := by
  cases h with
  | takeJoin hj => exact .inr ⟨rfl, rfl⟩
  | _ => exact .inl rfl

theorem ended_of_joining (h : Turn m w d x w' x' d') (hx : x = .joining .joining) :
    w.ended = true := by
  cases h with
  | join he => exact he
  | _ => cases hx

/-- Who comes to join has closed the worker, from a thread that is not the worker's own. -/
theorem joining (h : Turn m w d x w' x' d') {pc : JoinPc} (hx' : x' = .joining pc) :
    (∃ pc', x = .joining pc') ∧ w'.isOpen = w.isOpen ∨ w'.isOpen = false ∧ m.self ≠ w.thread := by
  cases h with
  | close =>
    split at hx'
    · cases hx'
    · next hself => exact .inr ⟨rfl, hself⟩
  | lockJoin | takeJoin => exact .inl ⟨⟨_, rfl⟩, rfl⟩
  | _ => cases hx'

/-- An exit is over when the worker is closed, on the worker's own thread; when it finds nothing to
join; or when the worker's thread has ended. -/
theorem exit (h : Turn m w d x w' x' d') (hx : x.isExiting) (hx' : x' = .idle) :
    x = .closing .holding ∧ w' = { w with isOpen := false, entrance := none } ∧ d' = d ∧
        m.self = w.thread ∨
      x = .joining .taking ∧ w.joinable = false ∧ w' = { w with joinHolder := none } ∨
      x = .joining .joining ∧ w.ended = true ∧ w' = w := by
  cases h with
  | close =>
    split at hx'
    · next hself => exact .inl ⟨rfl, rfl, rfl, hself⟩
    · cases hx'
  | leaveJoin hj => exact .inr (.inl ⟨rfl, hj, rfl⟩)
  | join he => exact .inr (.inr ⟨rfl, he, rfl⟩)
  | lockClose | lockJoin | takeJoin => cases hx'
  | _ => cases hx

end Turn

namespace Scene

variable {s s₀ t : Scene ι} {m : Move ι} {ms : List (Move ι)} {handed : List ι}

theorem mem_stands (h : s.drain.isCalm) (pc : JoinPc) :
    .joining pc ∈ s.stands ↔ .joining pc ∈ s.threads := by
  rw [stands, List.mem_append]
  refine or_iff_left fun hm => ?_
  cases DrainStand.mem_inside_of_isCalm h hm

structure Joins (s : Scene ι) : Prop where
  /-- Whoever took over the join is in it as long as the worker's thread goes on. -/
  taken : s.worker.joinable = false → s.worker.ended = true ∨ .joining .joining ∈ s.stands
  shut : ∀ pc, .joining pc ∈ s.stands → s.worker.isOpen = false

theorem joins_of_isStart (h : s.isStart) : s.Joins := by
  obtain ⟨⟨name, thread, hw, -⟩, hidle, hd, -⟩ := h
  refine ⟨fun hj => ?_, fun pc hm => ?_⟩
  · rw [hw] at hj
    cases hj
  · rw [stands, hd] at hm
    cases hidle _ (by simpa [DrainStand.inside] using hm)

theorem Joins.turn (h : s.Joins) {m : Moment} {before after : List (Stand ι)} {x x' : Stand ι}
    (hs : s.stands = before ++ x :: after) (ht : t.stands = before ++ x' :: after)
    (hturn : Turn m s.worker s.deeds x t.worker x' t.deeds) : t.Joins := by
  have hx : x ∈ s.stands := hs ▸ List.mem_append_right _ (.head _)
  refine ⟨fun hj => ?_, fun pc hm => ?_⟩
  · rcases hturn.joinable with hsame | ⟨-, hx'⟩
    · rw [hsame] at hj
      rw [hturn.ended]
      rcases h.taken hj with hended | hm
      · exact .inl hended
      · rw [hs] at hm
        -- Who is in the join leaves it only once the worker's thread has ended.
        rcases mem_sides x' hm with hx | hm
        · exact .inl (hturn.ended_of_joining hx.symm)
        · exact .inr (ht ▸ hm)
    · rw [ht, hx']
      exact .inr (List.mem_append_right _ (.head _))
  · rw [ht] at hm
    have hkept (hold : s.worker.isOpen = false) : t.worker.isOpen = false := by
      rcases hturn.isOpen with ho | ⟨ho, -⟩
      · rw [ho, hold]
      · exact ho
    rcases mem_sides x hm with hx' | hm
    · rcases hturn.joining hx'.symm with ⟨⟨pc', rfl⟩, -⟩ | ⟨ho, -⟩
      · exact hkept (h.shut pc' hx)
      · exact ho
    · exact hkept (h.shut pc (hs ▸ hm))

/-- What the worker's own thread does between two items touches no exit. -/
theorem Joins.drain (h : s.Joins) (hthreads : t.threads = s.threads)
    (hs : s.drain.isCalm) (ht : t.drain.isCalm) (hopen : t.worker.isOpen = s.worker.isOpen)
    (hjoinable : t.worker.joinable = s.worker.joinable)
    (hended : s.worker.ended = true → t.worker.ended = true) : t.Joins := by
  have hiff (pc : JoinPc) : .joining pc ∈ t.stands ↔ .joining pc ∈ s.stands := by
    rw [mem_stands ht, mem_stands hs, hthreads]
  refine ⟨fun hj => ?_, fun pc hm => ?_⟩
  · rw [hjoinable] at hj
    exact (h.taken hj).imp hended (hiff .joining).mpr
  · rw [hopen]
    exact h.shut pc ((hiff pc).mp hm)

theorem Joins.step (h : s.Joins) (hs : s.Step t handed) : t.Joins := by
  cases hs with
  | turn m before after x x' hs ht hturn hd => exact h.turn hs ht hturn
  | begin before after operation hs ht hw hdeeds hd =>
    have hnot (pc : JoinPc) : operation.stand ≠ .joining pc := by cases operation <;> exact nofun
    refine ⟨fun hj => ?_, fun pc hm => ?_⟩
    · rw [hw] at hj ⊢
      refine (h.taken hj).imp_right fun hm => ?_
      rw [hs] at hm
      rcases mem_sides operation.stand hm with hm | hm
      · cases hm
      · exact ht ▸ hm
    · rw [ht] at hm
      rw [hw]
      rcases mem_sides .idle hm with hm | hm
      · exact absurd hm.symm (hnot pc)
      · exact h.shut pc (hs ▸ hm)
  | charge unwound hd ht =>
    subst ht
    cases unwound <;> exact h.drain rfl (by rw [hd]; rfl) rfl rfl rfl id
  | depart hd ht =>
    subst ht
    exact h.drain rfl (by rw [hd]; rfl) rfl rfl rfl fun _ => rfl
  | take item rest hd hi ht | leave hd hi ho ht | finish item unwound hd ht | settle hd ht =>
    subst ht
    exact h.drain rfl (by rw [hd]; rfl) rfl rfl rfl id

theorem Reachable.joins (h : s.Reachable) : s.Joins :=
  CrossCall.Reachable.keeps (fun _ _ _ hs hm => hs.step (step_of_move hm)) h
    fun _ hs => joins_of_isStart hs

/-! ### On the worker's own thread -/

/-- The worker's own thread is none of the others, and never in the second half of an exit. -/
structure Separate (s : Scene ι) : Prop where
  outside : s.threads.length ≤ s.worker.thread
  inside : ∀ pc, .joining pc ∉ s.drain.inside

theorem separate_of_isStart (h : s.isStart) : s.Separate := by
  obtain ⟨⟨name, thread, hw, hlength⟩, -, hd, -⟩ := h
  refine ⟨hw ▸ hlength, fun pc hm => ?_⟩
  rw [hd] at hm
  cases hm

theorem Separate.move (h : s.Separate) (ht : s.move m = some t) : t.Separate := by
  cases effect_of_move ht with
  | begin u operation hidle heq =>
    subst heq
    exact ⟨(List.length_set ..).symm ▸ h.outside, h.inside⟩
  | step u x x' worker deeds hx hturn heq =>
    subst heq
    refine ⟨?_, h.inside⟩
    rw [List.length_set]
    exact hturn.thread ▸ h.outside
  | beginInside item operation hd heq =>
    subst heq
    refine ⟨h.outside, fun pc hm => ?_⟩
    cases operation <;> cases hm
  | stepInside item x x' worker deeds hd hturn heq =>
    subst heq
    refine ⟨hturn.thread ▸ h.outside, fun pc hm => ?_⟩
    rcases hturn.joining (Option.some.inj hm) with ⟨⟨pc', rfl⟩, -⟩ | ⟨-, hself⟩
    · exact h.inside pc' (by rw [hd]; rfl)
    · exact hself rfl
  | finish item unwound hd heq =>
    subst heq
    exact ⟨h.outside, nofun⟩
  | take item rest hd hi heq =>
    subst heq
    exact ⟨h.outside, nofun⟩
  | drain worker drain hnone hinside hthread heq =>
    subst heq
    refine ⟨hthread ▸ h.outside, fun pc hm => ?_⟩
    rw [show drain.inside = _ from hm] at hinside
    cases hinside

theorem Reachable.separate (h : s.Reachable) : s.Separate :=
  CrossCall.Reachable.keeps (fun _ _ _ hs hm => hs.move hm) h fun _ hs => separate_of_isStart hs

/-! ### Returning -/

/-- The worker's thread has ended, and every item that was accepted has ended before. -/
structure Drained (s : Scene ι) : Prop where
  ended : s.drain = .over
  closed : s.worker.isOpen = false
  finished : s.deeds.ended.map Prod.fst = s.deeds.accepted
  pending : s.worker.pending = 0

/-- Once the worker's thread has left its loop, all that was accepted has ended. -/
theorem Sound.finished (h : s.Sound) (hleft : s.drain.hasLeft) :
    s.deeds.ended.map Prod.fst = s.deeds.accepted := by
  have hfifo := h.fifo
  have hturns := h.turns
  have hnone : s.drain.item? = none := by
    cases hd : s.drain <;> first | rfl | (rw [hd] at hleft; cases hleft)
  rw [(h.left hleft).2, List.append_nil] at hfifo
  rw [hnone, Option.toList, List.append_nil] at hturns
  rw [hfifo, hturns]

theorem Reachable.drained (h : s.Reachable) (he : s.worker.ended = true) : s.Drained := by
  have hsound := h.sound
  have hover := hsound.ended he
  obtain ⟨hopen, hitems⟩ := hsound.left (DrainStand.hasLeft_of_isOver hover)
  have hd : s.drain = .over := by
    cases hd : s.drain <;> first | rfl | (rw [hd] at hover; cases hover)
  refine ⟨hd, hopen, hsound.finished (DrainStand.hasLeft_of_isOver hover), ?_⟩
  -- Nobody is let in any more, so nothing is counted that is not in the queue.
  have hout : s.stands.countP Stand.isCounted = 0 := by
    rw [List.countP_eq_zero]
    intro stand hm hc
    have ho := hsound.letIn stand hm (Stand.isLetIn_of_isCounted hc)
    rw [hopen] at ho
    cases ho
  have hcount := h.counted
  rw [Counted, unsettled, hitems, hout, hd] at hcount
  exact hcount

/-- When an exit returns on a thread that is not the worker's own, the worker is closed, and all that
was accepted has ended, unless the exit found nothing to join and another one is still in the join.
On the worker's own thread an exit closes the worker and returns without a join, and what was
accepted by then is all that the worker goes on to run. -/
theorem exit_returns_drained_or_beside_a_join (h₀ : s₀.isStart)
    (hs : afterMoves move s₀ ms = some s) :
    (∀ (u : ThreadId) x t, s.threads[u]? = some x → x.isExiting → s.move (.step u) = some t →
      t.threads[u]? = some .idle →
      t.worker.isOpen = false ∧
        (t.Drained ∨ x = .joining .taking ∧ Stand.joining .joining ∈ t.threads)) ∧
      (∀ item pc, s.drain ≠ .running item (.joining pc)) ∧
      ∀ item x t, s.drain = .running item x → x.isExiting → s.move .stepInside = some t →
        t.drain = .running item .idle →
        t.worker.isOpen = false ∧ t.worker.items = s.worker.items ∧ t.deeds = s.deeds ∧
          ∀ ns v, afterMoves move t ns = some v → v.deeds.accepted = s.deeds.accepted ∧
            (v.drain.hasLeft → v.deeds.ended.map Prod.fst = s.deeds.accepted) := by
  have hreach : s.Reachable := .trans (.start h₀) (.of_afterMoves hs)
  have hjoins := hreach.joins
  have hseparate := hreach.separate
  refine ⟨fun u x t hx hexit ht hidle => ?_, fun item pc hd => ?_,
    fun item x t hd hexit ht hidle => ?_⟩
  · have htreach : t.Reachable := .move _ hreach ht
    have hu : u < s.threads.length := (List.getElem?_eq_some_iff.mp hx).1
    have hmem : x ∈ s.stands := List.mem_append_left _ (List.mem_of_getElem? hx)
    cases effect_of_move ht with | step _ y x' w d hy hturn heq => ?_
    obtain rfl := Option.some.inj (hx.symm.trans hy)
    subst heq
    obtain rfl : x' = .idle := by
      rw [List.getElem?_set_self hu] at hidle
      exact Option.some.inj hidle
    rcases hturn.exit hexit rfl with
      ⟨-, -, -, hself⟩ | ⟨rfl, hj, rfl⟩ | ⟨rfl, he, rfl⟩
    · have hout := hseparate.outside
      exact absurd hself (Nat.ne_of_lt (Nat.lt_of_lt_of_le hu hout))
    · refine ⟨hjoins.shut .taking hmem, ?_⟩
      rcases hjoins.taken hj with he | hm
      · exact .inl (htreach.drained he)
      · -- The one who joins is not the one who returns, and is still there.
        have hm : Stand.joining .joining ∈ s.threads := by
          rcases List.mem_append.mp hm with hm | hm
          · exact hm
          · exact absurd (Option.mem_toList.mp hm) (hseparate.inside .joining)
        obtain ⟨v, hv⟩ := List.mem_iff_getElem?.mp hm
        have huv : u ≠ v := by
          rintro rfl
          rw [hx] at hv
          cases hv
        exact .inr ⟨rfl, List.mem_of_getElem? ((List.getElem?_set_ne huv).trans hv)⟩
    · exact ⟨hjoins.shut .joining hmem, .inl (htreach.drained he)⟩
  · exact hseparate.inside pc (by rw [hd]; rfl)
  · have htreach : t.Reachable := .move _ hreach ht
    cases effect_of_move ht with | stepInside _ y x' w d hrun hturn heq => ?_
    obtain rfl := (DrainStand.running.inj (hd.symm.trans hrun)).2
    subst heq
    obtain rfl : x' = .idle := (DrainStand.running.inj hidle).2
    rcases hturn.exit hexit rfl with ⟨rfl, rfl, rfl, -⟩ | ⟨rfl, -⟩ | ⟨rfl, -⟩
    · refine ⟨rfl, rfl, rfl, fun ns v hv => ?_⟩
      have hclosed := htreach.closed rfl (.of_afterMoves hv)
      have hvreach : v.Reachable := .trans htreach (.of_afterMoves hv)
      refine ⟨hclosed.accepted, fun hleft => ?_⟩
      rw [hvreach.sound.finished hleft, hclosed.accepted]
    · exact absurd (by rw [hd]; rfl) (hseparate.inside .taking)
    · exact absurd (by rw [hd]; rfl) (hseparate.inside .joining)

/-- A thread posts an item and exits; while it waits for the item, a second thread exits. -/
def overlappingExits : List (Move Nat) :=
  List.flatten [[.begin 0 (.enqueue 7)], List.replicate 4 (.step 0), [.drain, .begin 0 .exit],
    List.replicate 4 (.step 0), [.begin 1 .exit], List.replicate 3 (.step 1)]

theorem exit_returns_drained_once_the_item_has_ended :
    ∃ s t : Scene Nat,
      afterMoves move { worker := { name := "w", thread := 2 }, threads := [.idle, .idle] }
        (overlappingExits ++ .finish false :: List.replicate 4 .drain) = some s ∧
      s.move (.step 0) = some t ∧ t.threads[0]? = some .idle ∧ t.Drained := by
  have hrun := exit_returns_drained_or_beside_a_join
    ⟨⟨"w", 2, rfl, by decide⟩, by decide, rfl, rfl⟩
    (show afterMoves move { worker := { name := "w", thread := 2 }, threads := [.idle, .idle] }
      (overlappingExits ++ .finish false :: List.replicate 4 .drain) = some _ from rfl)
  obtain ⟨hopen, hdrained | ⟨htaking, -⟩⟩ := hrun.1 0 (.joining .joining) _ rfl rfl rfl rfl
  · exact ⟨_, _, rfl, rfl, rfl, hdrained⟩
  · cases htaking

/-- The second of two exits that overlap returns although the item still runs. -/
theorem exit_returns_before_the_item_has_ended :
    ∃ s t : Scene Nat,
      afterMoves move { worker := { name := "w", thread := 2 }, threads := [.idle, .idle] }
        overlappingExits = some s ∧
      s.threads[1]? = some (.joining .taking) ∧ s.move (.step 1) = some t ∧
      t.threads[1]? = some .idle ∧ t.drain = .running 7 .idle ∧ t.worker.pending = 1 ∧
      t.deeds.accepted = [7] ∧ t.deeds.ended = [] :=
  ⟨_, _, rfl, rfl, rfl, rfl, rfl, rfl, rfl, rfl⟩

end Scene
end CrossCall.Worker
