import CrossCall.Proofs.Worker.Effect

/-! What is true of a worker however threads take turns. What was accepted is what was started and
what the queue still keeps, in this order; the entrance is passed by one thread at a time; and once
the worker's thread has left its loop nobody is let in and nothing is kept. -/

namespace CrossCall.Worker

variable {ι : Type}

def Operation.item? : Operation ι → Option ι
  | .enqueue item => some item
  | _ => none

/-- The items that a move hands in. -/
def Move.handed : Move ι → List ι
  | .begin _ operation | .beginInside operation => operation.item?.toList
  | _ => []

namespace DrainStand

def hasLeft : DrainStand ι → Bool
  | .finishing | .over => true
  | _ => false

def isOver : DrainStand ι → Bool
  | .over => true
  | _ => false

/-- The same but for what the running item does. -/
def outline : DrainStand ι → DrainStand ι
  | .running item _ => .running item .idle
  | drain => drain

/-- The running item, if there is one, is in no operation. -/
def isCalm (drain : DrainStand ι) : Prop := drain.inside.getD .idle = .idle

theorem mem_inside_of_isCalm {drain : DrainStand ι} (h : drain.isCalm) {stand : Stand ι}
    (hm : stand ∈ drain.inside.toList) : stand = .idle := by
  unfold isCalm at h
  rw [Option.mem_toList] at hm
  rwa [hm] at h

theorem item?_outline (drain : DrainStand ι) : drain.outline.item? = drain.item? := by
  cases drain <;> rfl

theorem hasLeft_outline (drain : DrainStand ι) : drain.outline.hasLeft = drain.hasLeft := by
  cases drain <;> rfl

theorem isOver_outline (drain : DrainStand ι) : drain.outline.isOver = drain.isOver := by
  cases drain <;> rfl

theorem hasLeft_of_isOver {drain : DrainStand ι} (h : drain.isOver) : drain.hasLeft := by
  cases drain <;> first | rfl | cases h

end DrainStand

namespace Scene

variable {s t : Scene ι} {m : Move ι} {handed : List ι}

/-- Where the threads stand, and the item that runs. -/
def stands (s : Scene ι) : List (Stand ι) := s.threads ++ s.drain.inside.toList

/-- What a move comes to, and the items that it hands in. -/
inductive Step (s t : Scene ι) : List ι → Prop where
  | turn (m : Moment) (before after : List (Stand ι)) (x x' : Stand ι) :
      s.stands = before ++ x :: after → t.stands = before ++ x' :: after →
      Turn m s.worker s.deeds x t.worker x' t.deeds → t.drain.outline = s.drain.outline →
      Step s t []
  | begin (before after : List (Stand ι)) (operation : Operation ι) :
      s.stands = before ++ .idle :: after → t.stands = before ++ operation.stand :: after →
      t.worker = s.worker → t.deeds = s.deeds → t.drain.outline = s.drain.outline →
      Step s t operation.item?.toList
  | take (item : ι) (rest : List ι) : s.drain = .receiving → s.worker.items = item :: rest →
      t = { s with
        worker := { s.worker with items := rest }
        drain := .running item .idle
        deeds := { s.deeds with started := s.deeds.started ++ [item] } } → Step s t []
  | leave : s.drain = .receiving → s.worker.items = [] → s.worker.isOpen = false →
      t = { s with drain := .finishing } → Step s t []
  | finish (item : ι) (unwound : Bool) : s.drain = .running item .idle →
      t = { s with
        drain := .charging unwound
        deeds := { s.deeds with ended := s.deeds.ended ++ [(item, unwound)] } } → Step s t []
  | charge (unwound : Bool) : s.drain = .charging unwound →
      t = { s with worker := s.worker.charge unwound, drain := .settling } → Step s t []
  | settle : s.drain = .settling →
      t = { s with worker := s.worker.settle, drain := .receiving } → Step s t []
  | depart : s.drain = .finishing →
      t = { s with worker := s.worker.finish, drain := .over } → Step s t []

theorem stands_set {i : Nat} {x : Stand ι} (h : s.threads[i]? = some x) (x' : Stand ι)
    (worker : Worker ι) (deeds : Deeds ι) :
    ∃ before after, s.stands = before ++ x :: after ∧
      Scene.stands { s with worker, threads := s.threads.set i x', deeds } =
        before ++ x' :: after := by
  obtain ⟨before, after, hs, hset, -⟩ := exists_sides h
  refine ⟨before, after ++ s.drain.inside.toList, ?_, ?_⟩
  · rw [stands, hs, List.append_assoc, List.cons_append]
  · rw [stands, hset, List.append_assoc, List.cons_append]

theorem step_drain (h : s.stepDrain s.drain = some t) : s.Step t [] := by
  generalize hd : s.drain = drain at h
  cases drain with
  | receiving =>
    simp only [stepDrain] at h
    cases hi : s.worker.items with
    | nil =>
      cases ho : s.worker.isOpen with
      | true => simp [receive, hi, ho] at h
      | false =>
        simp only [receive, hi, ho, Bool.false_eq_true, if_false, Option.some.injEq] at h
        exact .leave hd hi ho h.symm
    | cons item rest =>
      simp only [receive, hi, Option.some.injEq] at h
      exact .take item rest hd hi h.symm
  | running item inside => simp [stepDrain] at h
  | charging unwound => exact .charge unwound hd (Option.some.inj h).symm
  | settling => exact .settle hd (Option.some.inj h).symm
  | finishing => exact .depart hd (Option.some.inj h).symm
  | «over» => simp [stepDrain] at h

theorem step_of_move (h : s.move m = some t) : s.Step t m.handed := by
  cases effect_of_move h with
  | begin u operation hidle ht =>
    subst ht
    obtain ⟨before, after, hs, ht⟩ := stands_set hidle operation.stand s.worker s.deeds
    exact .begin before after operation hs ht rfl rfl rfl
  | step u x x' worker deeds hx hturn ht =>
    subst ht
    obtain ⟨before, after, hs, ht⟩ := stands_set hx x' worker deeds
    exact .turn _ before after x x' hs ht hturn rfl
  | beginInside item operation hd ht =>
    subst ht
    exact .begin s.threads [] operation (by rw [stands, hd]; rfl) rfl rfl rfl (by rw [hd]; rfl)
  | stepInside item x x' worker deeds hd hturn ht =>
    subst ht
    exact .turn _ s.threads [] x x' (by rw [stands, hd]; rfl) rfl hturn (by rw [hd]; rfl)
  | finish item unwound hd ht => exact .finish item unwound hd ht
  | take | drain => exact step_drain h

structure Sound (s : Scene ι) : Prop where
  /-- Nothing that was accepted is lost, taken twice or overtaken. -/
  fifo : s.deeds.accepted = s.deeds.started ++ s.worker.items
  turns : s.deeds.started = s.deeds.ended.map Prod.fst ++ s.drain.item?.toList
  locked : s.stands.countP Stand.holds = s.worker.entrance.isSome.toNat
  letIn : ∀ stand ∈ s.stands, stand.isLetIn → s.worker.isOpen = true
  left : s.drain.hasLeft → s.worker.isOpen = false ∧ s.worker.items = []
  ended : s.worker.ended = true → s.drain.isOver
  steady : ∀ stand ∈ s.stands, ∀ item, stand ≠ .enqueuing item .rollingBack

theorem sound_of_isStart (h : s.isStart) : s.Sound := by
  obtain ⟨⟨name, thread, hw, -⟩, hidle, hd, hdeeds⟩ := h
  have hstands : ∀ stand ∈ s.stands, stand = .idle := by
    rw [stands, hd]
    simpa [DrainStand.inside] using hidle
  constructor
  case fifo =>
    rw [hdeeds, hw]
    rfl
  case turns =>
    rw [hdeeds, hd]
    rfl
  case locked =>
    rw [List.countP_eq_zero.mpr, hw]
    · rfl
    · intro stand hm
      rw [hstands stand hm]
      exact nofun
  case letIn =>
    intro stand hm hl
    rw [hstands stand hm] at hl
    cases hl
  case left =>
    intro hl
    rw [hd] at hl
    cases hl
  case ended =>
    intro he
    rw [hw] at he
    cases he
  case steady =>
    intro stand hm item
    rw [hstands stand hm]
    exact nofun

/-- While one thread holds the lock of the entrance no other one does. -/
theorem Sound.not_holds (h : s.Sound) {before after : List (Stand ι)} {x stand : Stand ι}
    (hs : s.stands = before ++ x :: after) (hx : x.holds) (hm : stand ∈ before ++ after) :
    ¬ stand.holds := by
  have hlocked := h.locked
  rw [hs, countP_sides, hx, Bool.toNat_true] at hlocked
  have hle := Bool.toNat_le s.worker.entrance.isSome
  have hzero : (before ++ after).countP Stand.holds = 0 := by
    rw [List.countP_append]
    omega
  exact List.countP_eq_zero.mp hzero stand hm

theorem Sound.turn (h : s.Sound) {m : Moment} {before after : List (Stand ι)} {x x' : Stand ι}
    (hs : s.stands = before ++ x :: after) (ht : t.stands = before ++ x' :: after)
    (hturn : Turn m s.worker s.deeds x t.worker x' t.deeds)
    (hd : t.drain.outline = s.drain.outline) : t.Sound := by
  have hitem : t.drain.item? = s.drain.item? := by
    rw [← DrainStand.item?_outline, hd, DrainStand.item?_outline]
  have hleft : t.drain.hasLeft = s.drain.hasLeft := by
    rw [← DrainStand.hasLeft_outline, hd, DrainStand.hasLeft_outline]
  have hover : t.drain.isOver = s.drain.isOver := by
    rw [← DrainStand.isOver_outline, hd, DrainStand.isOver_outline]
  have hx : x ∈ s.stands := by simp [hs]
  have hcases (stand : Stand ι) (hm : stand ∈ t.stands) : stand = x' ∨ stand ∈ before ++ after := by
    rw [ht, List.mem_append, List.mem_cons] at hm
    rw [List.mem_append]
    exact hm.elim (fun hb => .inr (.inl hb)) fun hm => hm.imp id .inr
  have hold (stand : Stand ι) (hm : stand ∈ before ++ after) : stand ∈ s.stands := by
    rw [hs, List.mem_append, List.mem_cons]
    exact (List.mem_append.mp hm).imp id .inr
  constructor
  case fifo =>
    rw [hturn.started.1]
    rcases hturn.accepted with ⟨hi, ha⟩ | ⟨-, item, hi, ha⟩
    · rw [ha, hi, h.fifo]
    · rw [ha, hi, h.fifo, List.append_assoc]
  case turns => rw [hturn.started.1, hturn.started.2, hitem, h.turns]
  case locked =>
    have hlocked := h.locked
    rw [hs, countP_sides] at hlocked
    have hl := hturn.locked (by omega)
    rw [ht, countP_sides]
    omega
  case letIn =>
    intro stand hm hl
    rcases hcases stand hm with rfl | hm
    · exact hturn.isLetIn (h.letIn x hx) hl
    · rcases hturn.isOpen with ho | ⟨-, hxh, -⟩
      · rw [ho]
        exact h.letIn stand (hold stand hm) hl
      · -- Who closes the worker holds the lock, and then nobody is inside the entrance.
        exact absurd (Stand.holds_of_isLetIn hl) (h.not_holds hs hxh hm)
  case left =>
    intro hl
    rw [hleft] at hl
    obtain ⟨ho, hi⟩ := h.left hl
    refine ⟨?_, ?_⟩
    · rcases hturn.isOpen with ho' | ⟨ho', -⟩
      · rw [ho', ho]
      · exact ho'
    · rcases hturn.accepted with ⟨hi', -⟩ | ⟨hxl, -⟩
      · rw [hi', hi]
      · rw [h.letIn x hx hxl] at ho
        cases ho
  case ended =>
    intro he
    rw [hturn.ended] at he
    rw [hover]
    exact h.ended he
  case steady =>
    intro stand hm item he
    rcases hcases stand hm with rfl | hm
    · -- Let in, the thread keeps the worker open; ended, the worker is closed.
      obtain ⟨hxl, hended⟩ := hturn.rollingBack he
      have hopen := h.letIn x hx hxl
      rw [(h.left (DrainStand.hasLeft_of_isOver (h.ended hended))).1] at hopen
      cases hopen
    · exact h.steady stand (hold stand hm) item he

theorem Sound.begin (h : s.Sound) {before after : List (Stand ι)} {operation : Operation ι}
    (hs : s.stands = before ++ .idle :: after) (ht : t.stands = before ++ operation.stand :: after)
    (hw : t.worker = s.worker) (hdeeds : t.deeds = s.deeds)
    (hd : t.drain.outline = s.drain.outline) : t.Sound := by
  have hnew : ∀ stand ∈ t.stands, stand = operation.stand ∨ stand ∈ s.stands := by
    intro stand hm
    rw [ht, List.mem_append, List.mem_cons] at hm
    rw [hs, List.mem_append, List.mem_cons]
    rcases hm with hm | hm | hm
    · exact .inr (.inl hm)
    · exact .inl hm
    · exact .inr (.inr (.inr hm))
  constructor
  case fifo =>
    rw [hdeeds, hw]
    exact h.fifo
  case turns =>
    rw [hdeeds, ← DrainStand.item?_outline, hd, DrainStand.item?_outline]
    exact h.turns
  case locked =>
    have hlocked := h.locked
    rw [hs, countP_sides] at hlocked
    rw [ht, countP_sides, hw, ← hlocked]
    cases operation <;> rfl
  case letIn =>
    intro stand hm hl
    rw [hw]
    rcases hnew stand hm with rfl | hm
    · cases operation <;> cases hl
    · exact h.letIn stand hm hl
  case left =>
    intro hl
    rw [← DrainStand.hasLeft_outline, hd, DrainStand.hasLeft_outline] at hl
    rw [hw]
    exact h.left hl
  case ended =>
    intro he
    rw [hw] at he
    rw [← DrainStand.isOver_outline, hd, DrainStand.isOver_outline]
    exact h.ended he
  case steady =>
    intro stand hm item he
    rcases hnew stand hm with rfl | hm
    · cases operation <;> cases he
    · exact h.steady stand hm item he

/-- A step of the worker's own thread, before or after which the running item is in no operation,
leaves the threads and the entrance as they are. -/
theorem Sound.drain (h : s.Sound) (hthreads : t.threads = s.threads)
    (hs : s.drain.isCalm) (ht : t.drain.isCalm)
    (hopen : t.worker.isOpen = s.worker.isOpen) (hentrance : t.worker.entrance = s.worker.entrance)
    (hfifo : t.deeds.accepted = t.deeds.started ++ t.worker.items)
    (hturns : t.deeds.started = t.deeds.ended.map Prod.fst ++ t.drain.item?.toList)
    (hleft : t.drain.hasLeft → s.worker.isOpen = false ∧ t.worker.items = [])
    (hended : t.worker.ended = true → t.drain.isOver) : t.Sound := by
  have hcount (drain : DrainStand ι) (hd : drain.isCalm) :
      drain.inside.toList.countP Stand.holds = 0 := by
    rw [List.countP_eq_zero]
    intro stand hm
    rw [DrainStand.mem_inside_of_isCalm hd hm]
    exact nofun
  have hnew : ∀ stand ∈ t.stands, stand = .idle ∨ stand ∈ s.stands := by
    intro stand hm
    rw [stands, hthreads, List.mem_append] at hm
    rcases hm with hm | hm
    · exact .inr (List.mem_append_left _ hm)
    · exact .inl (DrainStand.mem_inside_of_isCalm ht hm)
  constructor
  case fifo => exact hfifo
  case turns => exact hturns
  case locked =>
    have hlocked := h.locked
    rw [stands, List.countP_append, hcount _ hs] at hlocked
    rw [stands, List.countP_append, hcount _ ht, hthreads, hentrance, hlocked]
  case letIn =>
    intro stand hm hl
    rw [hopen]
    rcases hnew stand hm with rfl | hm
    · cases hl
    · exact h.letIn stand hm hl
  case left =>
    rw [hopen]
    exact hleft
  case ended => exact hended
  case steady =>
    intro stand hm item he
    rcases hnew stand hm with rfl | hm
    · cases he
    · exact h.steady stand hm item he

theorem Sound.step (h : s.Sound) (hs : s.Step t handed) : t.Sound := by
  have hfifo := h.fifo
  have hturns := h.turns
  have hended := h.ended
  have hleft := h.left
  cases hs with
  | turn m before after x x' hs ht hturn hd => exact h.turn hs ht hturn hd
  | begin before after operation hs ht hw hdeeds hd => exact h.begin hs ht hw hdeeds hd
  | take item rest hd hi ht =>
    subst ht
    rw [hd] at hturns hended
    refine h.drain rfl (by rw [hd]; rfl) rfl rfl rfl ?_ ?_ nofun fun he => ?_
    · rw [hfifo, hi, List.append_assoc]
      rfl
    · rw [hturns]
      exact List.append_assoc _ [] [item]
    · cases hended he
  | leave hd hi ho ht =>
    subst ht
    rw [hd] at hturns hended
    refine h.drain rfl (by rw [hd]; rfl) rfl rfl rfl hfifo hturns (fun _ => ⟨ho, hi⟩) fun he => ?_
    cases hended he
  | finish item unwound hd ht =>
    subst ht
    rw [hd] at hturns hended
    refine h.drain rfl (by rw [hd]; rfl) rfl rfl rfl hfifo ?_ nofun fun he => ?_
    · rw [hturns, List.map_append]
      exact (List.append_nil _).symm
    · cases hended he
  | charge unwound hd ht =>
    subst ht
    rw [hd] at hturns hended
    have hcharge : (s.worker.charge unwound).isOpen = s.worker.isOpen ∧
        (s.worker.charge unwound).entrance = s.worker.entrance ∧
        (s.worker.charge unwound).items = s.worker.items ∧
        (s.worker.charge unwound).ended = s.worker.ended := by
      cases unwound <;> exact ⟨rfl, rfl, rfl, rfl⟩
    obtain ⟨ho, hentrance, hi, he'⟩ := hcharge
    refine h.drain rfl (by rw [hd]; rfl) rfl ho hentrance ?_ hturns nofun fun he => ?_
    · rw [hi]
      exact hfifo
    · rw [he'] at he
      cases hended he
  | settle hd ht =>
    subst ht
    rw [hd] at hturns hended
    refine h.drain rfl (by rw [hd]; rfl) rfl rfl rfl hfifo hturns nofun fun he => ?_
    cases hended he
  | depart hd ht =>
    subst ht
    rw [hd] at hturns hleft
    exact h.drain rfl (by rw [hd]; rfl) rfl rfl rfl hfifo hturns (fun _ => hleft rfl) fun _ => rfl

theorem Reachable.sound (h : s.Reachable) : s.Sound :=
  CrossCall.Reachable.keeps (fun _ _ _ hs hm => hs.step (step_of_move hm)) h
    fun _ hs => sound_of_isStart hs

end Scene
end CrossCall.Worker
