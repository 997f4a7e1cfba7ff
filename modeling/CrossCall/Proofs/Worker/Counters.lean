import CrossCall.Proofs.Worker.Sound

/-! What the counter of pending items counts: the items in the queue, the items that are let in and
not yet handed over, and the item that runs until its outcome has been counted. The counter is a
word, so in every state it is the word of their number; whoever lowers it lowers their number. -/

namespace CrossCall.Worker

variable {ι : Type}

/-- Counted as pending, and not yet in the queue. -/
def Stand.isCounted : Stand ι → Bool
  | .enqueuing _ .sending | .enqueuing _ .rollingBack => true
  | _ => false

/-- With an item that was taken and is still pending. -/
def DrainStand.isBusy : DrainStand ι → Bool
  | .running _ _ | .charging _ | .settling => true
  | _ => false

theorem Stand.isLetIn_of_isCounted {stand : Stand ι} (h : stand.isCounted) : stand.isLetIn := by
  unfold isCounted at h
  split at h <;> first | rfl | cases h

theorem DrainStand.isBusy_outline (drain : DrainStand ι) : drain.outline.isBusy = drain.isBusy := by
  cases drain <;> rfl

theorem ofNat_succ_sub_one (n : Nat) : UInt64.ofNat (n + 1) - 1 = .ofNat n := by
  rw [UInt64.ofNat_add]
  exact UInt64.add_sub_cancel _ _

/-- A turn keeps to the counter as it moves an item on, whatever else `n` is counted. -/
theorem Turn.pending {m : Moment} {w w' : Worker ι} {d d' : Deeds ι} {x x' : Stand ι}
    (h : Turn m w d x w' x' d') {n : Nat}
    (hn : w.pending = .ofNat (n + w.items.length + x.isCounted.toNat)) :
    w'.pending = .ofNat (n + w'.items.length + x'.isCounted.toNat) := by
  cases h with
  | letIn item ho =>
    show w.pending + 1 = .ofNat (n + w.items.length + 1)
    rw [hn]
    exact (UInt64.ofNat_add _ 1).symm
  | send item he =>
    rw [List.length_append]
    exact hn
  | rollBack item =>
    show w.pending - 1 = .ofNat (n + w.items.length)
    rw [hn]
    exact ofNat_succ_sub_one _
  | close =>
    have hx' : (if m.self = w.thread then .idle else .joining .locking : Stand ι).isCounted =
        false := by
      split <;> rfl
    rw [hx']
    exact hn
  | _ => exact hn

namespace Scene

variable {s t : Scene ι} {handed : List ι}

/-- How many items are let in or accepted and not yet settled. -/
def unsettled (s : Scene ι) : Nat :=
  s.worker.items.length + s.stands.countP Stand.isCounted + s.drain.isBusy.toNat

def Counted (s : Scene ι) : Prop := s.worker.pending = .ofNat s.unsettled

/-- A running item that is in no operation counts for nothing among the threads. -/
theorem countP_stands {P : Stand ι → Bool} (hP : P .idle = false) (h : s.drain.isCalm) :
    s.stands.countP P = s.threads.countP P := by
  have hinside : s.drain.inside.toList.countP P = 0 := by
    rw [List.countP_eq_zero]
    intro stand hm
    rw [DrainStand.mem_inside_of_isCalm h hm, hP]
    exact Bool.false_ne_true
  rw [stands, List.countP_append, hinside, Nat.add_zero]

theorem countP_stands_eq {P : Stand ι → Bool} (hP : P .idle = false)
    (hthreads : t.threads = s.threads) (hs : s.drain.isCalm) (ht : t.drain.isCalm) :
    t.stands.countP P = s.stands.countP P := by
  rw [countP_stands hP hs, countP_stands hP ht, hthreads]

theorem counted_of_isStart (h : s.isStart) : s.Counted := by
  obtain ⟨⟨name, thread, hw, -⟩, hidle, hd, -⟩ := h
  have hcount : s.threads.countP Stand.isCounted = 0 := by
    rw [List.countP_eq_zero]
    intro stand hm
    rw [hidle stand hm]
    exact nofun
  rw [Counted, unsettled, countP_stands rfl (by rw [hd]; rfl), hcount, hw, hd]
  rfl

theorem Counted.turn (h : s.Counted) {m : Moment} {before after : List (Stand ι)} {x x' : Stand ι}
    (hs : s.stands = before ++ x :: after) (ht : t.stands = before ++ x' :: after)
    (hturn : Turn m s.worker s.deeds x t.worker x' t.deeds)
    (hd : t.drain.outline = s.drain.outline) : t.Counted := by
  have hbusy : t.drain.isBusy = s.drain.isBusy := by
    rw [← DrainStand.isBusy_outline, hd, DrainStand.isBusy_outline]
  let n := before.countP Stand.isCounted + after.countP Stand.isCounted + s.drain.isBusy.toNat
  have hunsettled {w : Scene ι} {y : Stand ι} (hw : w.stands = before ++ y :: after)
      (hb : w.drain.isBusy = s.drain.isBusy) :
      w.unsettled = n + w.worker.items.length + y.isCounted.toNat := by
    rw [unsettled, hw, countP_sides, hb]
    omega
  rw [Counted, hunsettled hs rfl] at h
  rw [Counted, hunsettled ht hbusy]
  exact hturn.pending h

/-- Between two items the worker's own thread changes what is counted only in the queue, in the
counter and in what it is busy with. -/
theorem Counted.drain (h : s.Counted) (hthreads : t.threads = s.threads)
    (hs : s.drain.isCalm) (ht : t.drain.isCalm)
    (hkept : ∀ n, s.worker.pending = .ofNat (n + s.worker.items.length + s.drain.isBusy.toNat) →
      t.worker.pending = .ofNat (n + t.worker.items.length + t.drain.isBusy.toNat)) :
    t.Counted := by
  rw [Counted, unsettled, Nat.add_comm s.worker.items.length] at h
  rw [Counted, unsettled, countP_stands_eq rfl hthreads hs ht, Nat.add_comm t.worker.items.length]
  exact hkept _ h

theorem Counted.step (h : s.Counted) (hs : s.Step t handed) : t.Counted := by
  cases hs with
  | turn m before after x x' hs ht hturn hd => exact h.turn hs ht hturn hd
  | begin before after operation hs ht hw hdeeds hd =>
    have hbusy : t.drain.isBusy = s.drain.isBusy := by
      rw [← DrainStand.isBusy_outline, hd, DrainStand.isBusy_outline]
    have hstand : operation.stand.isCounted = false := by cases operation <;> rfl
    rw [Counted, unsettled, hs, countP_sides] at h
    rw [Counted, unsettled, ht, countP_sides, hw, hbusy, hstand]
    exact h
  | take item rest hd hi ht =>
    subst ht
    refine h.drain rfl (by rw [hd]; rfl) rfl fun n hn => ?_
    rw [hd, hi] at hn
    exact hn
  | leave hd hi ho ht | finish item unwound hd ht | depart hd ht =>
    subst ht
    refine h.drain rfl (by rw [hd]; rfl) rfl fun n hn => ?_
    rw [hd] at hn
    exact hn
  | charge unwound hd ht =>
    subst ht
    refine h.drain rfl (by rw [hd]; rfl) rfl fun n hn => ?_
    rw [hd] at hn
    cases unwound <;> exact hn
  | settle hd ht =>
    subst ht
    refine h.drain rfl (by rw [hd]; rfl) rfl fun n hn => ?_
    rw [hd] at hn
    show s.worker.pending - 1 = .ofNat (n + s.worker.items.length)
    rw [hn]
    exact ofNat_succ_sub_one _

theorem Reachable.counted (h : s.Reachable) : s.Counted :=
  CrossCall.Reachable.keeps (fun _ _ _ hs hm => hs.step (step_of_move hm)) h
    fun _ hs => counted_of_isStart hs

end Scene
end CrossCall.Worker
