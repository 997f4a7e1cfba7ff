import CrossCall.Proofs.Worker.Exit
import Mathlib.Data.Bool.Count

/-! The three counters of a worker against the items that it accepted. They are changed one at a
time, by those who hand in items and by the worker's own thread, so their sum is ahead of the
accepted items by what is counted twice or too early: an item that is let in and not yet handed
over, and an item whose outcome is counted and which still counts as pending. The counters wrap
around, so this holds of their sum as a word; the numbers themselves add up as long as fewer items
are let in than a word can count. -/

namespace CrossCall.Worker

variable {ι : Type}

def counters (w : Worker ι) : WorkerStats := ⟨w.pending, w.executed, w.panicked⟩

/-- The counter of the items that ended in this way. -/
def charged (w : Worker ι) : Bool → UInt64
  | false => w.executed
  | true => w.panicked

theorem charged_charge (w : Worker ι) (unwound other : Bool) :
    (w.charge unwound).charged other = w.charged other + .ofNat ([unwound].count other) := by
  cases unwound <;> cases other <;> first | rfl | exact (UInt64.add_zero _).symm

def Stand.isEnqueuing : Stand ι → Bool
  | .enqueuing _ _ => true
  | _ => false

namespace DrainStand

/-- The outcome that is not yet counted. -/
def uncharged? : DrainStand ι → Option Bool
  | .charging unwound => some unwound
  | _ => none

/-- With an item that is counted twice: its outcome is counted, and it is still pending. -/
def isSettling : DrainStand ι → Bool
  | .settling => true
  | _ => false

theorem uncharged?_outline (drain : DrainStand ι) : drain.outline.uncharged? = drain.uncharged? := by
  cases drain <;> rfl

theorem isSettling_outline (drain : DrainStand ι) : drain.outline.isSettling = drain.isSettling := by
  cases drain <;> rfl

/-- The worker's own thread is busy with an item until its outcome is counted, and a step longer. -/
theorem busy (drain : DrainStand ι) :
    drain.isBusy.toNat =
      drain.item?.toList.length + drain.uncharged?.toList.length + drain.isSettling.toNat := by
  cases drain <;> rfl

end DrainStand

theorem Turn.charged {m : Moment} {w w' : Worker ι} {d d' : Deeds ι} {x x' : Stand ι}
    (h : Turn m w d x w' x' d') (unwound : Bool) : w'.charged unwound = w.charged unwound := by
  cases h <;> cases unwound <;> rfl

/-- Who was let in stays so until its item is accepted. -/
theorem Turn.admitted {m : Moment} {w w' : Worker ι} {d d' : Deeds ι} {x x' : Stand ι}
    (h : Turn m w d x w' x' d') (hsteady : ∀ item, x ≠ .enqueuing item .rollingBack) :
    d.accepted.length + x.isCounted.toNat ≤ d'.accepted.length + x'.isCounted.toNat := by
  cases h with
  | letIn item ho => exact Nat.le_succ _
  | send item he =>
    rw [List.length_append]
    exact Nat.le_refl _
  | fail item he => exact Nat.le_refl _
  | rollBack item => exact absurd rfl (hsteady item)
  | _ => exact Nat.le_add_right _ _

/-- A turn leaves the counters alone unless it lets in an item or takes one back. -/
theorem Turn.counters {m : Moment} {w w' : Worker ι} {d d' : Deeds ι} {x x' : Stand ι}
    (h : Turn m w d x w' x' d') :
    w'.counters = w.counters ∨ (x'.isLetIn ∧ d'.refused = d.refused) ∨
      ∃ item, x = .enqueuing item .rollingBack := by
  cases h with
  | letIn item ho => exact .inr (.inl ⟨rfl, rfl⟩)
  | rollBack item => exact .inr (.inr ⟨item, rfl⟩)
  | _ => exact .inl rfl

/-- Who was let in and does not fail is let in to the end of its enqueue, and is not refused. -/
theorem Turn.of_isLetIn {m : Moment} {w w' : Worker ι} {d d' : Deeds ι} {x x' : Stand ι}
    (h : Turn m w d x w' x' d') (hx : x.isLetIn)
    (hsteady : ∀ item, x ≠ .enqueuing item .rollingBack) :
    d'.refused = d.refused ∧ (x'.isEnqueuing → x'.isLetIn) := by
  cases h with
  | rollBack item => exact absurd rfl (hsteady item)
  | fail item he | send item he => exact ⟨rfl, fun _ => rfl⟩
  | release item => exact ⟨rfl, nofun⟩
  | _ => cases hx

namespace Scene

variable {s s₀ t : Scene ι} {m : Move ι} {ms ns : List (Move ι)} {handed : List ι}

/-! ### The outcomes -/

/-- So many items that returned or unwound have been counted as such: all that have ended, but for
one whose outcome is not counted yet. -/
structure Tallied (s : Scene ι) (n : Bool → Nat) : Prop where
  charged : ∀ unwound, s.worker.charged unwound = .ofNat (n unwound)
  ended : ∀ unwound, n unwound + s.drain.uncharged?.toList.count unwound =
    (s.deeds.ended.map Prod.snd).count unwound
  /-- The item that is counted twice is counted among them. -/
  settling : s.drain.isSettling.toNat ≤ n false + n true

variable {n : Bool → Nat}

theorem tallied_of_isStart (h : s.isStart) : s.Tallied fun _ => 0 := by
  obtain ⟨⟨name, thread, hw, -⟩, -, hd, hdeeds⟩ := h
  constructor
  · intro unwound
    rw [hw]
    cases unwound <;> rfl
  · intro unwound
    rw [hd, hdeeds]
    rfl
  · rw [hd]
    exact Nat.zero_le _

/-- What has been counted stays counted. -/
theorem Tallied.step (h : s.Tallied n) (hs : s.Step t handed) :
    ∃ n', t.Tallied n' ∧ ∀ unwound, n unwound ≤ n' unwound := by
  cases hs with
  | charge unwound hd ht =>
    subst ht
    refine ⟨fun other => n other + [unwound].count other, ⟨fun other => ?_, fun other => ?_, ?_⟩,
      fun other => Nat.le_add_right _ _⟩
    · rw [charged_charge, h.charged, UInt64.ofNat_add]
    · have hended := h.ended other
      rw [hd] at hended
      exact hended
    · have hone := List.count_false_add_count_true [unwound]
      rw [List.length_singleton] at hone
      simp only [DrainStand.isSettling, Bool.toNat_true]
      omega
  | turn m before after x x' hs ht hturn hd =>
    refine ⟨n, ⟨fun unwound => ?_, fun unwound => ?_, ?_⟩, fun _ => Nat.le_refl _⟩
    · rw [hturn.charged, h.charged]
    · rw [← DrainStand.uncharged?_outline, hd, DrainStand.uncharged?_outline, hturn.started.2]
      exact h.ended unwound
    · rw [← DrainStand.isSettling_outline, hd, DrainStand.isSettling_outline]
      exact h.settling
  | begin before after operation hs ht hw hdeeds hd =>
    refine ⟨n, ⟨fun unwound => ?_, fun unwound => ?_, ?_⟩, fun _ => Nat.le_refl _⟩
    · rw [hw, h.charged]
    · rw [← DrainStand.uncharged?_outline, hd, DrainStand.uncharged?_outline, hdeeds]
      exact h.ended unwound
    · rw [← DrainStand.isSettling_outline, hd, DrainStand.isSettling_outline]
      exact h.settling
  | finish item unwound hd ht =>
    subst ht
    refine ⟨n, ⟨h.charged, fun other => ?_, Nat.zero_le _⟩, fun _ => Nat.le_refl _⟩
    have hended := h.ended other
    rw [hd] at hended
    rw [List.map_append, List.count_append, ← hended]
    rfl
  | take item rest hd hi ht | leave hd hi ho ht | settle hd ht | depart hd ht =>
    subst ht
    refine ⟨n, ⟨fun unwound => ?_, fun unwound => ?_, Nat.zero_le _⟩, fun _ => Nat.le_refl _⟩
    · refine Eq.trans ?_ (h.charged unwound)
      cases unwound <;> rfl
    · have hended := h.ended unwound
      rw [hd] at hended
      exact hended

theorem Reachable.tallied (h : s.Reachable) : ∃ n, s.Tallied n := by
  refine CrossCall.Reachable.keeps (P := fun s => ∃ n, Tallied s n) ?_ h
    fun _ hs => ⟨_, tallied_of_isStart hs⟩
  rintro u m v ⟨n, hu⟩ hm
  obtain ⟨n', hv, -⟩ := hu.step (step_of_move hm)
  exact ⟨n', hv⟩

theorem Tallied.run (h : s.Tallied n) (ht : CrossCall.Reachable move (· = s) t) :
    ∃ n', t.Tallied n' ∧ ∀ unwound, n unwound ≤ n' unwound := by
  refine CrossCall.Reachable.keeps
    (P := fun t => ∃ n', Tallied t n' ∧ ∀ unwound, n unwound ≤ n' unwound) ?_ ht ?_
  · rintro u m v ⟨n', hu, hle⟩ hm
    obtain ⟨n'', hv, hle'⟩ := hu.step (step_of_move hm)
    exact ⟨n'', hv, fun unwound => Nat.le_trans (hle unwound) (hle' unwound)⟩
  · rintro u rfl
    exact ⟨n, h, fun _ => Nat.le_refl _⟩

theorem Tallied.sum (h : s.Tallied n) :
    n false + n true + s.drain.uncharged?.toList.length = s.deeds.ended.length := by
  have hreturned := h.ended false
  have hunwound := h.ended true
  have hended := List.count_false_add_count_true (s.deeds.ended.map Prod.snd)
  have hout := List.count_false_add_count_true s.drain.uncharged?.toList
  rw [List.length_map] at hended
  omega

theorem Sound.length_accepted (h : s.Sound) :
    s.deeds.accepted.length =
      s.deeds.ended.length + s.drain.item?.toList.length + s.worker.items.length := by
  rw [h.fifo, h.turns, List.length_append, List.length_append, List.length_map]

theorem Tallied.sum_le (h : s.Tallied n) (hs : s.Sound) :
    n false + n true ≤ s.deeds.accepted.length := by
  have hsum := h.sum
  have haccepted := hs.length_accepted
  omega

theorem Tallied.le (h : s.Tallied n) (hs : s.Sound) (unwound : Bool) :
    n unwound ≤ s.deeds.accepted.length := by
  have hle := h.sum_le hs
  cases unwound <;> omega

theorem Tallied.toNat_charged (h : s.Tallied n) (hs : s.Sound)
    (hlt : s.deeds.accepted.length < UInt64.size) (unwound : Bool) :
    (s.worker.charged unwound).toNat = n unwound := by
  rw [h.charged, UInt64.toNat_ofNat_of_lt' (Nat.lt_of_le_of_lt (h.le hs unwound) hlt)]

theorem Tallied.toNat_charged_le (h : s.Tallied n) (unwound : Bool) :
    (s.worker.charged unwound).toNat ≤ n unwound := by
  rw [h.charged, UInt64.toNat_ofNat']
  exact Nat.mod_le _ _

/-- With no outcome left to count, the counters count all that have ended. -/
theorem Reachable.charged (h : s.Reachable) (hnone : s.drain.uncharged? = none) (unwound : Bool) :
    s.worker.charged unwound = .ofNat ((s.deeds.ended.map Prod.snd).count unwound) := by
  obtain ⟨n, hn⟩ := h.tallied
  have hended := hn.ended unwound
  rw [hnone] at hended
  rw [hn.charged, ← hended]
  rfl

theorem Reachable.toNat_charged (h : s.Reachable) (hnone : s.drain.uncharged? = none)
    (hlt : s.deeds.accepted.length < UInt64.size) (unwound : Bool) :
    (s.worker.charged unwound).toNat = (s.deeds.ended.map Prod.snd).count unwound := by
  obtain ⟨n, hn⟩ := h.tallied
  have hended := hn.ended unwound
  rw [hnone] at hended
  rw [hn.toNat_charged h.sound hlt, ← hended]
  rfl

theorem Reachable.charged_le (h : s.Reachable) (ht : CrossCall.Reachable move (· = s) t)
    (hlt : t.deeds.accepted.length < UInt64.size) (unwound : Bool) :
    s.worker.charged unwound ≤ t.worker.charged unwound := by
  obtain ⟨n, hs⟩ := h.tallied
  obtain ⟨n', ht', hle⟩ := hs.run ht
  have htreach : t.Reachable := .trans h ht
  have hlt' : n' unwound < UInt64.size :=
    Nat.lt_of_le_of_lt (ht'.le htreach.sound unwound) hlt
  rw [hs.charged, ht'.charged]
  exact (UInt64.ofNat_le_iff_le (Nat.lt_of_le_of_lt (hle unwound) hlt') hlt').mpr (hle unwound)

/-! ### The sum -/

/-- At most one enqueue is counted and not handed over, the one that holds the entrance. -/
theorem Sound.countP_isCounted (h : s.Sound) :
    s.stands.countP Stand.isCounted = (s.stands.any Stand.isCounted).toNat := by
  refine countP_eq_any (Nat.le_trans ?_ (h.locked ▸ Bool.toNat_le _))
  exact List.countP_mono_left fun stand _ hc =>
    Stand.holds_of_isLetIn (Stand.isLetIn_of_isCounted hc)

/-- The items that were let in: the accepted ones, and one that is counted and not handed over. -/
def admitted (s : Scene ι) : Nat := s.deeds.accepted.length + (s.stands.any Stand.isCounted).toNat

theorem Sound.admitted_eq (h : s.Sound) :
    s.admitted = s.deeds.accepted.length + s.stands.countP Stand.isCounted := by
  rw [admitted, h.countP_isCounted]

/-- An item that is let in is not turned away. -/
theorem Step.admitted_le (h : s.Step t handed) (hs : s.Sound) (ht : t.Sound) :
    s.admitted ≤ t.admitted := by
  rw [hs.admitted_eq, ht.admitted_eq]
  cases h with
  | turn m before after x x' hs' ht' hturn hd =>
    have hx : x ∈ s.stands := hs' ▸ List.mem_append_right _ (.head _)
    have hadmitted := hturn.admitted (hs.steady x hx)
    rw [hs', ht', countP_sides, countP_sides]
    omega
  | begin before after operation hs' ht' hw hdeeds hd =>
    have hstand : operation.stand.isCounted = false := by cases operation <;> rfl
    rw [hs', ht', countP_sides, countP_sides, hdeeds, hstand]
    exact Nat.le_refl _
  | take item rest hd hi heq | leave hd hi ho heq | finish item unwound hd heq
  | charge unwound hd heq | settle hd heq | depart hd heq =>
    subst heq
    refine Nat.add_le_add_left (Nat.le_of_eq (Eq.symm ?_)) _
    exact countP_stands_eq rfl rfl (by rw [hd]; rfl) rfl

theorem Reachable.admitted_le (h : s.Reachable) (ht : CrossCall.Reachable move (· = s) t) :
    s.admitted ≤ t.admitted := by
  suffices hle : t.Reachable ∧ s.admitted ≤ t.admitted from hle.2
  refine CrossCall.Reachable.keeps (P := fun t => Reachable t ∧ s.admitted ≤ t.admitted) ?_ ht ?_
  · rintro u m v ⟨hu, hle⟩ hm
    have hv : v.Reachable := .move m hu hm
    exact ⟨hv, Nat.le_trans hle ((step_of_move hm).admitted_le hu.sound hv.sound)⟩
  · rintro u rfl
    exact ⟨h, Nat.le_refl _⟩

/-- What is unsettled and what has been counted as ended are the items let in, but for the item that
is counted twice. -/
theorem Reachable.tally (h : s.Reachable) (hn : s.Tallied n) :
    s.unsettled + n false + n true = s.admitted + s.drain.isSettling.toNat := by
  have hsum := hn.sum
  have haccepted := h.sound.length_accepted
  have hbusy := s.drain.busy
  rw [unsettled, h.sound.admitted_eq]
  omega

theorem Reachable.balanced (h : s.Reachable) :
    s.worker.pending + s.worker.executed + s.worker.panicked =
      .ofNat (s.admitted + s.drain.isSettling.toNat) := by
  obtain ⟨n, hn⟩ := h.tallied
  have hexecuted : s.worker.executed = .ofNat (n false) := hn.charged false
  have hpanicked : s.worker.panicked = .ofNat (n true) := hn.charged true
  rw [h.counted, hexecuted, hpanicked, ← h.tally hn, UInt64.ofNat_add, UInt64.ofNat_add]

theorem Reachable.toNat_pending (h : s.Reachable) (hlt : s.admitted < UInt64.size) :
    s.worker.pending.toNat = s.unsettled := by
  obtain ⟨n, hn⟩ := h.tallied
  have htally := h.tally hn
  have hsettling := hn.settling
  rw [h.counted, UInt64.toNat_ofNat_of_lt' (by omega)]

theorem Reachable.toNat_balanced (h : s.Reachable) (hlt : s.admitted < UInt64.size) :
    s.worker.pending.toNat + s.worker.executed.toNat + s.worker.panicked.toNat =
      s.admitted + s.drain.isSettling.toNat := by
  obtain ⟨n, hn⟩ := h.tallied
  have haccepted : s.deeds.accepted.length < UInt64.size :=
    Nat.lt_of_le_of_lt (Nat.le_add_right _ _) hlt
  have hexecuted : s.worker.executed.toNat = n false := hn.toNat_charged h.sound haccepted false
  have hpanicked : s.worker.panicked.toNat = n true := hn.toNat_charged h.sound haccepted true
  rw [h.toNat_pending hlt, hexecuted, hpanicked, h.tally hn]

/-- Who lowers the counter of pending items finds it positive. -/
theorem Reachable.pending_pos (h : s.Reachable) (hlt : s.admitted < UInt64.size)
    (hlowers : (∃ item, .enqueuing item .rollingBack ∈ s.stands) ∨ s.drain = .settling) :
    0 < s.worker.pending := by
  rw [UInt64.lt_iff_toNat_lt, h.toNat_pending hlt, unsettled]
  rcases hlowers with ⟨item, hm⟩ | hd
  · have hpos : 0 < s.stands.countP Stand.isCounted := List.countP_pos_iff.mpr ⟨_, hm, rfl⟩
    exact Nat.lt_of_lt_of_le hpos (by omega)
  · rw [hd]
    exact Nat.succ_pos _

/-- With nothing counted too early and nothing left to do, the counters are exact. -/
theorem Reachable.settled (h : s.Reachable) (hout : ∀ stand ∈ s.stands, ¬ stand.isCounted)
    (hrest : s.drain = .receiving ∧ s.worker.items = [] ∨ s.drain.hasLeft) :
    s.deeds.ended.map Prod.fst = s.deeds.accepted ∧
      s.worker.counters = ⟨0, .ofNat ((s.deeds.ended.map Prod.snd).count false),
        .ofNat ((s.deeds.ended.map Prod.snd).count true)⟩ := by
  have hitems : s.worker.items = [] := hrest.elim And.right fun hl => (h.sound.left hl).2
  have hquiet : s.drain.item? = none ∧ s.drain.isBusy = false ∧ s.drain.uncharged? = none := by
    rcases hrest with ⟨hd, -⟩ | hl
    · rw [hd]
      exact ⟨rfl, rfl, rfl⟩
    · cases hd : s.drain <;> first | exact ⟨rfl, rfl, rfl⟩ | (rw [hd] at hl; cases hl)
  obtain ⟨hitem, hbusy, huncharged⟩ := hquiet
  have hfifo := h.sound.fifo
  have hturns := h.sound.turns
  have hpending := h.counted
  rw [hitems, List.append_nil] at hfifo
  rw [hitem, Option.toList, List.append_nil] at hturns
  rw [Counted, unsettled, hitems, List.countP_eq_zero.mpr hout, hbusy] at hpending
  refine ⟨by rw [hfifo, hturns], ?_⟩
  rw [counters, hpending, ← h.charged huncharged false, ← h.charged huncharged true]
  rfl

theorem toNat_counters_of_ended (hended : s.deeds.ended.map Prod.fst = s.deeds.accepted)
    (hcounters : s.worker.counters = ⟨0, .ofNat ((s.deeds.ended.map Prod.snd).count false),
      .ofNat ((s.deeds.ended.map Prod.snd).count true)⟩)
    (hlt : s.deeds.accepted.length < UInt64.size) :
    s.worker.executed.toNat = (s.deeds.ended.map Prod.snd).count false ∧
      s.worker.panicked.toNat = (s.deeds.ended.map Prod.snd).count true ∧
      s.worker.executed.toNat + s.worker.panicked.toNat = s.deeds.accepted.length := by
  obtain ⟨-, hexecuted, hpanicked⟩ := WorkerStats.mk.inj hcounters
  have hsum := List.count_false_add_count_true (s.deeds.ended.map Prod.snd)
  rw [List.length_map, ← List.length_map Prod.fst, hended] at hsum
  rw [hexecuted, hpanicked, UInt64.toNat_ofNat_of_lt' (by omega),
    UInt64.toNat_ofNat_of_lt' (by omega)]
  exact ⟨rfl, rfl, hsum⟩

/-! ### An enqueue that is refused -/

inductive Actor where
  | thread (u : ThreadId)
  /-- The item that runs. -/
  | item
  deriving DecidableEq

def Actor.step : Actor → Move ι
  | .thread u => .step u
  | .item => .stepInside

def standOf (s : Scene ι) : Actor → Option (Stand ι)
  | .thread u => s.threads[u]?
  | .item => s.drain.inside

/-- Whether it is in the middle of handing in an item. -/
def enqueues (who : Actor) (s : Scene ι) : Bool := (s.standOf who).any Stand.isEnqueuing

theorem mem_stands_of_standOf {who : Actor} {x : Stand ι} (h : s.standOf who = some x) :
    x ∈ s.stands := by
  cases who with
  | thread u => exact List.mem_append_left _ (List.mem_of_getElem? h)
  | item => exact List.mem_append_right _ (Option.mem_toList.mpr h)

/-- Who is in an operation goes on with it by turns of its own, and by nothing else. -/
theorem Effect.actor (h : s.Effect t m) {who : Actor} {x : Stand ι} (hx : s.standOf who = some x)
    (hbusy : x ≠ .idle) :
    t.standOf who = some x ∧ m ≠ who.step ∨ m = who.step ∧ ∃ moment x',
      t.standOf who = some x' ∧ Turn moment s.worker s.deeds x t.worker x' t.deeds := by
  cases h with
  | begin u operation hidle ht =>
    subst ht
    refine .inl ⟨?_, by cases who <;> exact nofun⟩
    cases who with
    | item => exact hx
    | thread v =>
      refine (List.getElem?_set_ne ?_).trans hx
      rintro rfl
      exact hbusy (Option.some.inj (hx.symm.trans hidle))
  | step u y x' worker deeds hy hturn ht =>
    subst ht
    cases who with
    | item => exact .inl ⟨hx, nofun⟩
    | thread v =>
      by_cases huv : u = v
      · subst huv
        obtain rfl := Option.some.inj (hx.symm.trans hy)
        exact .inr ⟨rfl, _, x', getElem?_set_of_some hx _, hturn⟩
      · exact .inl ⟨(List.getElem?_set_ne huv).trans hx, fun hm => huv (Move.step.inj hm)⟩
  | beginInside item operation hd ht =>
    subst ht
    refine .inl ⟨?_, by cases who <;> exact nofun⟩
    cases who with
    | thread v => exact hx
    | item =>
      rw [standOf, hd] at hx
      exact absurd (Option.some.inj hx).symm hbusy
  | stepInside item y x' worker deeds hd hturn ht =>
    subst ht
    cases who with
    | thread v => exact .inl ⟨hx, nofun⟩
    | item =>
      rw [standOf, hd] at hx
      obtain rfl := Option.some.inj hx
      exact .inr ⟨rfl, _, x', rfl, hturn⟩
  | finish item unwound hd ht =>
    subst ht
    refine .inl ⟨?_, by cases who <;> exact nofun⟩
    cases who with
    | thread v => exact hx
    | item =>
      rw [standOf, hd] at hx
      exact absurd (Option.some.inj hx).symm hbusy
  | take item rest hd hi ht =>
    subst ht
    refine .inl ⟨?_, by cases who <;> exact nofun⟩
    cases who with
    | thread v => exact hx
    | item =>
      rw [standOf, hd] at hx
      cases hx
  | drain worker drain hnone hinside hthread ht =>
    subst ht
    refine .inl ⟨?_, by cases who <;> exact nofun⟩
    cases who with
    | thread v => exact hx
    | item =>
      cases hd : s.drain with
      | running item inside =>
        rw [hd] at hnone
        cases hnone
      | _ =>
        rw [standOf, hd] at hx
        cases hx

/-- Who has been let in stays so for as long as it goes on with its enqueue. -/
theorem isLetIn_along {who : Actor} (h : s.Reachable)
    (hall : AllAlong move (fun v => v.enqueues who) s ns) (ht : afterMoves move s ns = some t)
    (hin : ∃ x, s.standOf who = some x ∧ x.isLetIn) : ∃ x, t.standOf who = some x ∧ x.isLetIn := by
  induction ns generalizing s with
  | nil => exact Option.some.inj ht ▸ hin
  | cons m rest ih =>
    obtain ⟨u, hm, hu⟩ := Option.bind_eq_some_iff.mp ht
    obtain ⟨x, hx, hl⟩ := hin
    have hrest := hall.2 u hm
    refine ih (.move m h hm) hrest hu ?_
    have hbusy : x ≠ .idle := by
      rintro rfl
      cases hl
    rcases (effect_of_move hm).actor hx hbusy with ⟨hx', -⟩ | ⟨-, moment, x', hx', hturn⟩
    · exact ⟨x, hx', hl⟩
    · have henq := hrest.head
      rw [enqueues, hx'] at henq
      have hsteady := h.sound.steady x (mem_stands_of_standOf hx)
      exact ⟨x', hx', (hturn.of_isLetIn hl hsteady).2 henq⟩

/-- A step of who is in an enqueue is a turn in it, and it does not fail. -/
theorem Reachable.turn_of_step {who : Actor} (h : s.Reachable) (henq : s.enqueues who)
    (ht : s.move who.step = some t) :
    ∃ moment x x', s.standOf who = some x ∧ t.standOf who = some x' ∧
      Turn moment s.worker s.deeds x t.worker x' t.deeds ∧
      ∀ item, x ≠ .enqueuing item .rollingBack := by
  cases hx : s.standOf who with
  | none =>
    rw [enqueues, hx] at henq
    cases henq
  | some x =>
    have hbusy : x ≠ .idle := by
      rintro rfl
      rw [enqueues, hx] at henq
      cases henq
    rcases (effect_of_move ht).actor hx hbusy with ⟨-, hne⟩ | ⟨-, moment, x', hx', hturn⟩
    · exact absurd rfl hne
    · exact ⟨moment, x, x', rfl, hx', hturn, h.sound.steady x (mem_stands_of_standOf hx)⟩

theorem Reachable.counters_refused {who : Actor} {u v w : Scene ι} {before after : List (Move ι)}
    (h : s.Reachable) (hall : AllAlong move (fun v => v.enqueues who) s ns)
    (ht : afterMoves move s ns = some t) (hu : t.move who.step = some u)
    (hrefused : u.deeds.refused ≠ t.deeds.refused)
    (hcut : ns ++ [who.step] = before ++ who.step :: after)
    (hv : afterMoves move s before = some v) (hw : v.move who.step = some w) :
    w.worker.counters = v.worker.counters := by
  have htreach : t.Reachable := .trans h (.of_afterMoves ht)
  obtain ⟨moment, x, x', hx, hx', hlast, hsteady⟩ := htreach.turn_of_step (hall.last ht) hu
  rcases List.eq_nil_or_concat after with rfl | ⟨after, m, rfl⟩
  · -- It is the last step, the one in which the item is refused.
    obtain rfl := List.append_inj_left' hcut rfl
    obtain rfl := Option.some.inj (ht.symm.trans hv)
    obtain rfl := Option.some.inj (hu.symm.trans hw)
    rcases hlast.counters with hsame | ⟨-, hr⟩ | ⟨item, hroll⟩
    · exact hsame
    · exact absurd hr hrefused
    · exact absurd hroll (hsteady item)
  · have hns : ns = before ++ who.step :: after := by
      rw [List.concat_eq_append, ← List.cons_append, ← List.append_assoc] at hcut
      exact List.append_inj_left' hcut rfl
    subst hns
    have hvreach : v.Reachable := .trans h (.of_afterMoves hv)
    have hvall := hall.rest hv
    obtain ⟨moment, y, y', hy, hy', hturn, hvsteady⟩ := hvreach.turn_of_step hvall.head hw
    rcases hturn.counters with hsame | ⟨hl, -⟩ | ⟨item, hroll⟩
    · exact hsame
    · -- Let in at this step, it would not be refused at the last one.
      have hwt : afterMoves move w after = some t := by
        rw [afterMoves_append, hv, Option.bind_some, afterMoves, hw] at ht
        exact ht
      obtain ⟨z, hz, hzl⟩ :=
        isLetIn_along (.move _ hvreach hw) (hvall.2 w hw) hwt ⟨y', hy', hl⟩
      obtain rfl := Option.some.inj (hx.symm.trans hz)
      exact absurd (hlast.of_isLetIn hzl hsteady).1 hrefused
    · exact absurd hroll (hvsteady item)

/-- However threads hand in items and exit, and whatever the items do: the counters add up, as words,
to the accepted items, an item that is let in and not yet handed over, and an item that is counted as
ended and not yet as no longer pending. As long as fewer items are let in than a word can count, the
numbers add up, and who lowers the counter of pending items finds it positive; as long as fewer are
accepted, the other two never go down. An enqueue that is refused touches none of the three. With no
enqueue half way and the worker idle, or gone with nothing queued, nothing is pending and the other
two count the accepted items by how they ended. -/
theorem counters_account_for_every_item (h₀ : s₀.isStart) (hs : afterMoves move s₀ ms = some s) :
    s.worker.pending + s.worker.executed + s.worker.panicked =
        .ofNat (s.admitted + s.drain.isSettling.toNat) ∧
      (s.admitted < UInt64.size →
        s.worker.pending.toNat + s.worker.executed.toNat + s.worker.panicked.toNat =
            s.admitted + s.drain.isSettling.toNat ∧
          ((∃ item, .enqueuing item .rollingBack ∈ s.stands) ∨ s.drain = .settling →
            0 < s.worker.pending)) ∧
      (∀ who ns t u, AllAlong move (fun v => v.enqueues who) s ns →
        afterMoves move s ns = some t → t.move who.step = some u →
        u.deeds.refused ≠ t.deeds.refused →
        ∀ before after v w, ns ++ [who.step] = before ++ who.step :: after →
          afterMoves move s before = some v → v.move who.step = some w →
          w.worker.counters = v.worker.counters) ∧
      (∀ ns t, afterMoves move s ns = some t → t.deeds.accepted.length < UInt64.size →
        s.worker.executed ≤ t.worker.executed ∧ s.worker.panicked ≤ t.worker.panicked) ∧
      ((∀ stand ∈ s.stands, ¬ stand.isCounted) →
        s.drain = .receiving ∧ s.worker.items = [] ∨ s.drain.hasLeft →
        s.deeds.ended.map Prod.fst = s.deeds.accepted ∧
          s.worker.counters = ⟨0, .ofNat ((s.deeds.ended.map Prod.snd).count false),
            .ofNat ((s.deeds.ended.map Prod.snd).count true)⟩ ∧
          (s.deeds.accepted.length < UInt64.size →
            s.worker.executed.toNat = (s.deeds.ended.map Prod.snd).count false ∧
              s.worker.panicked.toNat = (s.deeds.ended.map Prod.snd).count true ∧
              s.worker.executed.toNat + s.worker.panicked.toNat = s.deeds.accepted.length)) := by
  have hreach : s.Reachable := .trans (.start h₀) (.of_afterMoves hs)
  refine ⟨hreach.balanced, fun hlt => ⟨hreach.toNat_balanced hlt, hreach.pending_pos hlt⟩,
    fun who ns t u hall ht hu hr before after v w hcut hv hw =>
      hreach.counters_refused hall ht hu hr hcut hv hw,
    fun ns t ht hlt => ⟨hreach.charged_le (.of_afterMoves ht) hlt false,
      hreach.charged_le (.of_afterMoves ht) hlt true⟩,
    fun hout hrest => ?_⟩
  obtain ⟨hended, hcounters⟩ := hreach.settled hout hrest
  exact ⟨hended, hcounters, toNat_counters_of_ended hended hcounters⟩

theorem counters_account_for_every_item_closed_from_inside :
    ∃ s : Scene Nat,
      afterMoves move { worker := { name := "w", thread := 2 }, threads := [.idle, .idle] }
        closedFromInside = some s ∧
      s.deeds.accepted = [7, 8] ∧ s.deeds.refused = [9] ∧ s.worker.counters = ⟨0, 1, 1⟩ ∧
      s.worker.executed.toNat + s.worker.panicked.toNat = 2 := by
  have hrun := counters_account_for_every_item
    ⟨⟨"w", 2, rfl, by decide⟩, by decide, rfl, rfl⟩
    (show afterMoves move { worker := { name := "w", thread := 2 }, threads := [.idle, .idle] }
      closedFromInside = some _ from rfl)
  obtain ⟨-, hcounters, hexact⟩ := hrun.2.2.2.2 (by decide) (.inr rfl)
  exact ⟨_, rfl, rfl, rfl, hcounters, (hexact (by decide)).2.2⟩

end Scene
end CrossCall.Worker
