import CrossCall.Proofs.Call.Apart
import CrossCall.Proofs.Call.Starts

/-! Who waits for a permit is woken for it. The caller of a call is the only thread that ever parks
at the call's signal; a permit that comes while it is parked is followed by its notification; and
the lock of the count is held by the caller or by the attempt that raises. So once all attempts at a
call are over, the caller comes to its return by steps of its own. -/

namespace CrossCall.Call

variable {A V : Type}

def CallerStand.isParked : CallerStand V → Bool
  | .collecting _ (.waiting (.parked _)) => true
  | _ => false

/-- The caller holds the lock of the permits. -/
def CallerStand.isLooking : CallerStand V → Bool
  | .collecting _ (.waiting (.looking _ _)) => true
  | _ => false

/-- The attempt holds the lock of the permits. -/
def TargetStand.isAdding : TargetStand V → Bool
  | .delivering _ (.raising .adding) => true
  | _ => false

/-- The attempt has added its permit and is about to notify. -/
def TargetStand.isNotifying : TargetStand V → Bool
  | .delivering _ (.raising .notifying) => true
  | _ => false

theorem CallerStep.ne {bound : WaitBound} {m : Moment} {c c' : Call V}
    {caller caller' : CallerStand V} (h : CallerStep bound m c caller c' caller') :
    caller' ≠ caller := by
  intro he
  cases h with
  | wait since pc pc' s hw =>
    obtain ⟨-, he⟩ := CallerStand.collecting.inj he
    cases hw <;> cases he
  | waited | lock => cases (CallerStand.collecting.inj he).2
  | settle | abandon => cases he

namespace Course

variable {c d : Course V} {u : ThreadId} {m : Moment} {bound : WaitBound} {call : Call V}

structure Awake (u : ThreadId) (c : Course V) : Prop where
  asleep : c.call.signal.parked ++ c.call.signal.notified = if c.caller.isParked then [u] else []
  locked : c.stands.countP TargetStand.isAdding + c.caller.isLooking.toNat =
    c.call.signal.holder.isSome.toNat
  roused : 0 < c.call.signal.permits → c.call.signal.parked ≠ [] →
    ∃ stand ∈ c.stands, stand.isNotifying
  /-- An attempt skips the callable only where the call was begun or given up. -/
  skipped : .over none ∈ c.stands → c.call.phase ≠ .dispatched

theorem awake_new : ({} : Course V).Awake u := ⟨rfl, rfl, nofun, nofun⟩

theorem Awake.not_parked (h : c.Awake u) (hc : c.caller.isParked = false) :
    c.call.signal.parked = [] ∧ c.call.signal.notified = [] := by
  have hasleep := h.asleep
  rw [hc] at hasleep
  exact List.append_eq_nil_iff.mp hasleep

/-- Who is parked stands in one of the two lists. -/
theorem Awake.parked_or_notified (h : c.Awake u) (hc : c.caller.isParked) :
    c.call.signal.parked = [u] ∧ c.call.signal.notified = [] ∨
      c.call.signal.parked = [] ∧ c.call.signal.notified = [u] := by
  have hasleep := h.asleep
  rw [hc, if_pos rfl] at hasleep
  rcases List.append_eq_cons_iff.mp hasleep with ⟨hp, hn⟩ | ⟨rest, hp, hrest⟩
  · exact .inr ⟨hp, hn⟩
  · obtain ⟨rfl, hn⟩ := List.append_eq_nil_iff.mp hrest.symm
    exact .inl ⟨hp, hn⟩

/-- Only the caller is ever parked. -/
theorem Awake.of_mem_parked (h : c.Awake u) {v : ThreadId} (hv : v ∈ c.call.signal.parked) :
    v = u ∧ c.caller.isParked ∧ c.call.signal.parked = [u] ∧ c.call.signal.notified = [] := by
  cases hc : c.caller.isParked with
  | false =>
    rw [(h.not_parked hc).1] at hv
    cases hv
  | true =>
    rcases h.parked_or_notified hc with ⟨hp, hn⟩ | ⟨hp, -⟩
    · rw [hp, List.mem_singleton] at hv
      exact ⟨hv, rfl, hp, hn⟩
    · rw [hp] at hv
      cases hv

theorem awake_of_not_parked (hp : c.call.signal.parked = []) (hn : c.call.signal.notified = [])
    (hc : c.caller.isParked = false)
    (hlocked : c.stands.countP TargetStand.isAdding + c.caller.isLooking.toNat =
      c.call.signal.holder.isSome.toNat)
    (hskipped : .over none ∈ c.stands → c.call.phase ≠ .dispatched) : c.Awake u := by
  refine ⟨?_, hlocked, fun _ hne => absurd hp hne, hskipped⟩
  rw [hp, hn, hc]
  rfl

theorem Awake.caller_waits {pc pc' : Signal.WaitPc} {s : Signal} {since since' : Option Instant}
    (h : c.Awake m.self) (hold : c.caller = .collecting since (.waiting pc))
    (hw : Signal.Waits bound m c.call.signal pc (.going s pc')) :
    ({ c with
      call := { c.call with signal := s }
      caller := .collecting since' (.waiting pc') } : Course V).Awake m.self := by
  have hlocked := h.locked
  have hup := h.not_parked
  have hparked := h.parked_or_notified
  rw [hold] at hlocked hup hparked
  cases hw with
  | arrive => exact awake_of_not_parked (hup rfl).1 (hup rfl).2 rfl hlocked h.skipped
  | lock deadline cause hh =>
    rw [hh] at hlocked
    exact awake_of_not_parked (hup rfl).1 (hup rfl).2 rfl (congrArg (· + 1) hlocked) h.skipped
  | park deadline cause hnone hcause =>
    obtain ⟨hp, hn⟩ := hup rfl
    have hle := Bool.toNat_le c.call.signal.holder.isSome
    simp only [CallerStand.isLooking, Bool.toNat_true] at hlocked
    refine ⟨?_, ?_, fun hpos => absurd hnone (Nat.ne_of_gt hpos), h.skipped⟩
    · show c.call.signal.parked ++ [m.self] ++ c.call.signal.notified = [m.self]
      rw [hp, hn]
      rfl
    · show c.stands.countP TargetStand.isAdding + 0 = 0
      omega
  | notice deadline hm =>
    rcases hparked rfl with ⟨-, hn⟩ | ⟨hp, hn⟩
    · rw [hn] at hm
      cases hm
    · exact awake_of_not_parked hp (by rw [hn, List.erase_cons_head]) rfl hlocked h.skipped
  | expire deadline hm hd | stray deadline hm hd hstray =>
    rcases hparked rfl with ⟨hp, hn⟩ | ⟨-, hn⟩
    · exact awake_of_not_parked (by rw [hp, List.erase_cons_head]) hn rfl hlocked h.skipped
    · rw [hn] at hm
      exact absurd (List.mem_singleton_self _) hm

theorem Awake.step_caller {caller : CallerStand V} (h : c.Awake m.self)
    (hs : CallerStep bound m c.call c.caller call caller) :
    ({ c with call, caller } : Course V).Awake m.self := by
  have hlocked := h.locked
  have hup := h.not_parked
  generalize hold : c.caller = old at hs
  rw [hold] at hlocked hup
  cases hs with
  | wait since pc pc' s hw => exact h.caller_waits hold hw
  | waited since pc s signaled hw =>
    have hle := Bool.toNat_le c.call.signal.holder.isSome
    cases hw with
    | take | miss =>
      simp only [CallerStand.isLooking, Bool.toNat_true] at hlocked
      refine awake_of_not_parked (hup rfl).1 (hup rfl).2 rfl ?_ h.skipped
      show c.stands.countP TargetStand.isAdding + 0 = 0
      omega
  | lock since signaled hh =>
    exact awake_of_not_parked (hup rfl).1 (hup rfl).2 rfl hlocked h.skipped
  | settle since | abandon since =>
    exact awake_of_not_parked (hup rfl).1 (hup rfl).2 rfl hlocked fun _ => nofun

/-- A step of an attempt that leaves the signal alone. -/
theorem Awake.target_quiet (h : c.Awake u) {before after : List (TargetStand V)}
    {stand stand' : TargetStand V} (hc : c.stands = before ++ stand :: after)
    (hsignal : call.signal = c.call.signal) (hs : stand.isAdding = false)
    (hs' : stand'.isAdding = false) (hquiet : stand.isNotifying = false)
    (hphase : c.call.phase ≠ .dispatched → call.phase ≠ .dispatched)
    (hskip : stand' = .over none → call.phase ≠ .dispatched) :
    ({ c with call, stands := before ++ stand' :: after } : Course V).Awake u := by
  have hlocked := h.locked
  rw [hc, countP_sides, hs] at hlocked
  refine ⟨?_, ?_, fun hpos hne => ?_, fun hm => ?_⟩
  · rw [hsignal]
    exact h.asleep
  · show (before ++ stand' :: after).countP TargetStand.isAdding + _ = call.signal.holder.isSome.toNat
    rw [hsignal, countP_sides, hs']
    exact hlocked
  · rw [hsignal] at hpos hne
    obtain ⟨x, hm, hx⟩ := h.roused hpos hne
    rw [hc] at hm
    rcases mem_sides stand' hm with rfl | hm
    · rw [hquiet] at hx
      cases hx
    · exact ⟨x, hm, hx⟩
  · rcases mem_sides stand hm with he | hm
    · exact hskip he.symm
    · exact hphase (h.skipped (hc ▸ hm))

theorem Awake.step_target (h : c.Awake u) {before after : List (TargetStand V)}
    {stand stand' : TargetStand V} (hc : c.stands = before ++ stand :: after)
    (hs : TargetStep m c.call stand call stand') :
    ({ c with call, stands := before ++ stand' :: after } : Course V).Awake u := by
  have hskipped (hm : .over none ∈ before ++ stand' :: after) (hne : stand' ≠ .over none) :
      c.call.phase ≠ .dispatched := by
    rcases mem_sides stand hm with he | hm
    · exact absurd he.symm hne
    · exact h.skipped (hc ▸ hm)
  cases hs with
  | lockGate | lock | keep | discard | release =>
    exact h.target_quiet hc rfl rfl rfl rfl id nofun
  | pass hd => exact h.target_quiet hc rfl rfl rfl rfl (fun _ => nofun) nofun
  | skip hd => exact h.target_quiet hc rfl rfl rfl rfl id fun _ => hd
  | store r => exact h.target_quiet hc rfl rfl rfl rfl (fun _ => by cases r <;> exact nofun) nofun
  | raise r pc pc' s hr =>
    have hlocked := h.locked
    rw [hc, countP_sides] at hlocked
    cases hr with
    | lock hh =>
      refine ⟨h.asleep, ?_, fun hpos hne => ?_, fun hm => hskipped hm nofun⟩
      · rw [hh] at hlocked
        show (before ++ .delivering r (.raising .adding) :: after).countP _ + _ = 1
        rw [countP_sides]
        simp only [TargetStand.isAdding, Bool.toNat_false, Option.isSome_none, Bool.toNat_true]
          at hlocked ⊢
        omega
      · obtain ⟨x, hm, hx⟩ := h.roused hpos hne
        rw [hc] at hm
        rcases mem_sides (.delivering r (.raising .adding)) hm with rfl | hm
        · cases hx
        · exact ⟨x, hm, hx⟩
    | add =>
      refine ⟨h.asleep, ?_, fun _ _ => ⟨_, List.mem_append_right _ (.head _), rfl⟩,
        fun hm => hskipped hm nofun⟩
      have hle := Bool.toNat_le c.call.signal.holder.isSome
      show (before ++ .delivering r (.raising .notifying) :: after).countP _ + _ = 0
      rw [countP_sides]
      simp only [TargetStand.isAdding, Bool.toNat_false, Bool.toNat_true] at hlocked ⊢
      omega
  | raised r pc s hr =>
    cases hr
    have hlocked := h.locked
    rw [hc, countP_sides] at hlocked
    have hcount : (before ++ .delivering r .releasing :: after).countP TargetStand.isAdding +
        c.caller.isLooking.toNat = (c.call.signal.notifyOne m.pick).holder.isSome.toNat := by
      rw [countP_sides, Signal.notifyOne_holder]
      exact hlocked
    rcases Signal.notifyOne_cases c.call.signal m.pick with ⟨hnil, hsame⟩ | ⟨v, hv, hwoken⟩
    · refine ⟨?_, hcount, fun _ hne => ?_, fun hm => hskipped hm nofun⟩
      · rw [hsame]
        exact h.asleep
      · rw [hsame] at hne
        exact absurd hnil hne
    · -- Whoever is woken is the caller, and nobody is parked after that.
      obtain ⟨rfl, hc, hp, hn⟩ := h.of_mem_parked hv
      refine ⟨?_, hcount, fun _ hne => ?_, fun hm => hskipped hm nofun⟩
      · rw [hwoken, hp, hn, hc, List.erase_cons_head]
        rfl
      · rw [hwoken, hp, List.erase_cons_head] at hne
        exact absurd rfl hne

/-- A step of an attempt, of a queue or of the answer to the caller. -/
theorem Step.awake (hs : c.Step bound d) (hc : d.caller = c.caller ∨ c.caller = .handing)
    (h : c.Awake u) : d.Awake u := by
  cases hs with
  | take keep hq =>
    refine ⟨h.asleep, ?_, fun hpos hne => ?_, fun hm => h.skipped ?_⟩
    · rw [List.countP_append]
      exact h.locked
    · obtain ⟨stand, hm, hx⟩ := h.roused hpos hne
      exact ⟨stand, List.mem_append_left _ hm, hx⟩
    · simpa using hm
  | drop hq => exact ⟨h.asleep, h.locked, h.roused, h.skipped⟩
  | accept hh | refuse error hh =>
    have hlocked := h.locked
    have hup := h.not_parked
    rw [hh] at hlocked hup
    exact awake_of_not_parked (hup rfl).1 (hup rfl).2 rfl hlocked h.skipped
  | caller m call caller hs =>
    rcases hc with hsame | hh
    · exact absurd hsame hs.ne
    · rw [hh] at hs
      cases hs
  | target m before after stand stand' call hst hs => exact h.step_target hst hs
  | finish before after r hst => exact h.target_quiet hst rfl rfl rfl rfl id nofun

end Course

namespace Scene

variable {s t : Scene A V} {m : Move A V} {i : Nat} {p : Party A V}

def Awake (s : Scene A V) : Prop :=
  ∀ i p, s.parties[i]? = some p → (s.course i p).Awake p.thread

theorem Sound.move_awake (h : s.Sound) (hw : s.Awake) (ht : s.move m = some t) : t.Awake := by
  intro i q hq
  by_cases hi : i < s.parties.length
  · have hp := List.getElem?_eq_getElem hi
    obtain ⟨q', hq', hthread, -, -, hcourse⟩ := move_follows m hp ht
    obtain rfl := Option.some.inj (hq.symm.trans hq')
    rw [hthread]
    have hawake := hw i _ hp
    have hstep (hc : q.caller = s.parties[i].caller ∨ s.parties[i].caller = .handing) :
        (t.course i q).Awake s.parties[i].thread := by
      rcases hcourse with hsame | hstep
      · exact hsame ▸ hawake
      · exact hstep.awake hc hawake
    cases callerMove_of_move ht hp with
    | rest m q' hq' hc =>
      obtain rfl := Option.some.inj (hq.symm.trans hq')
      exact hstep (.inl hc)
    | accept hh | refuse error hh => exact hstep (.inr hh)
    | step stray call caller hs hput =>
      subst hput
      obtain rfl := Option.some.inj ((parties_put hp call caller).symm.trans hq)
      exact Course.Awake.step_caller (m := ⟨_, s.now, stray, 0⟩) hawake hs
  · have hnone := List.getElem?_eq_none_iff.mpr (Nat.le_of_not_lt hi)
    rcases h.move_party ht hq with ⟨p, hp, -⟩ | hnew
    · rw [hnone] at hp
      cases hp
    · exact hnew ▸ Course.awake_new

theorem Reachable.awake (h : s.Reachable) : s.Awake := by
  have key : s.Sound ∧ s.Awake := by
    refine CrossCall.Reachable.keeps (P := fun s => s.Sound ∧ s.Awake)
      (fun _ _ _ hs hm => ⟨hs.1.move hm, hs.1.move_awake hs.2 hm⟩) h fun s hs => ?_
    refine ⟨Reachable.sound (.start hs), fun i p hp => ?_⟩
    rw [hs.1] at hp
    cases hp
  exact key.2

end Scene
end CrossCall.Call
