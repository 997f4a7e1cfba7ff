import CrossCall.Proofs.Worker.Balance

/-! A reading of the counters while the worker runs. The three counters are read at three moments,
and between them items are let in, run and counted. Pending is read first and panicked last, and an
item is counted as ended before it is no longer pending, so an item may be seen twice but is never
missed. -/

namespace CrossCall.Worker

variable {ι : Type}

def Stand.isReading : Stand ι → Bool
  | .reading _ => true
  | _ => false

/-- Where a reading goes on from here. -/
def Stand.afterRead (w : Worker ι) : StatsPc → Stand ι
  | .pending => .reading (.executed w.pending)
  | .executed p => .reading (.panicked p w.executed)
  | .panicked _ _ => .idle

theorem Turn.reading {m : Moment} {w w' : Worker ι} {d d' : Deeds ι} {x' : Stand ι} {pc : StatsPc}
    (h : Turn m w d (.reading pc) w' x' d') : w' = w ∧ x' = .afterRead w pc := by
  cases h <;> exact ⟨rfl, rfl⟩

namespace Scene

variable {s s₀ t u v : Scene ι} {m : Move ι} {ms ns before after : List (Move ι)} {who : Actor}
  {read : WorkerStats}

def Actor.begin : Actor → Operation ι → Move ι
  | .thread u, operation => .begin u operation
  | .item, operation => .beginInside operation

def reads (who : Actor) (s : Scene ι) : Bool := (s.standOf who).any Stand.isReading

/-- From where it is begun to where it has its answer, in a run in which all others go on as they
like. -/
def Snapshot (who : Actor) (s : Scene ι) (ns : List (Move ι)) (read : WorkerStats)
    (t : Scene ι) : Prop :=
  ∃ between u v moment pc w, ns = who.begin .stats :: (between ++ [who.step]) ∧
    s.move (who.begin .stats) = some u ∧ afterMoves move u between = some v ∧
    AllAlong move (fun x => x.reads who) u between ∧ v.standOf who = some (.reading pc) ∧
    statsStep moment v.worker pc = .finished w read ∧ v.move who.step = some t

theorem standOf_begin {operation : Operation ι} (h : s.move (who.begin operation) = some t) :
    t.standOf who = some operation.stand := by
  cases who with
  | thread u =>
    cases effect_of_move h with
    | begin u operation hidle ht =>
      subst ht
      exact getElem?_set_of_some hidle _
  | item =>
    cases effect_of_move h with
    | beginInside item operation hd ht =>
      subst ht
      rfl

/-- Who has left the place in an operation where it stood has taken a turn there. -/
theorem exists_turn_of_standOf {x : Stand ι} (hx : s.standOf who = some x) (hbusy : x ≠ .idle)
    (ht : afterMoves move s ns = some t) (hleft : t.standOf who ≠ some x) :
    ∃ before after u v moment x', ns = before ++ who.step :: after ∧
      afterMoves move s before = some u ∧ u.move who.step = some v ∧
      afterMoves move v after = some t ∧ v.standOf who = some x' ∧
      Turn moment u.worker u.deeds x v.worker x' v.deeds := by
  obtain ⟨before, m, after, u, v, hns, hu, hm, hv, hux, hvx⟩ :=
    exists_turn (P := fun u => u.standOf who ≠ some x) ht (fun h => h hx) hleft
  rcases (effect_of_move hm).actor (not_not.mp hux) hbusy with
    ⟨hstays, -⟩ | ⟨rfl, moment, x', hx', hturn⟩
  · exact absurd hstays hvx
  · exact ⟨before, after, u, v, moment, x', hns, hu, hm, hv, hx', hturn⟩

theorem exists_read {pc : StatsPc} (hpc : s.standOf who = some (.reading pc))
    (ht : afterMoves move s ns = some t) (hleft : t.standOf who ≠ some (.reading pc)) :
    ∃ before after u v, ns = before ++ who.step :: after ∧ afterMoves move s before = some u ∧
      u.move who.step = some v ∧ afterMoves move v after = some t ∧ v.worker = u.worker ∧
      v.standOf who = some (Stand.afterRead u.worker pc) := by
  obtain ⟨before, after, u, v, moment, x', hns, hu, hm, hv, hx', hturn⟩ :=
    exists_turn_of_standOf hpc nofun ht hleft
  obtain ⟨hw, hread⟩ := hturn.reading
  exact ⟨before, after, u, v, hns, hu, hm, hv, hw, hread ▸ hx'⟩

/-- Before its last step a reading goes on to where it has its answer, and is in no operation then. -/
theorem standOf_panicked {p e : UInt64} (hall : AllAlong move (fun u => u.reads who) s ns)
    (hpc : s.standOf who = some (.reading (.panicked p e))) (ht : afterMoves move s ns = some t) :
    t.standOf who = some (.reading (.panicked p e)) := by
  by_contra hleft
  obtain ⟨before, after, u, v, rfl, hu, hv, -, -, hidle⟩ := exists_read hpc ht hleft
  have hreads : v.reads who := ((hall.rest hu).2 v hv).head
  rw [reads, hidle] at hreads
  cases hreads

/-- The counters are read at three moments of the run, in their order. -/
theorem Snapshot.moments (h : Snapshot who s ns read t) :
    ∃ before between after u v, ns = before ++ (between ++ after) ∧
      afterMoves move s before = some u ∧ afterMoves move u between = some v ∧
      afterMoves move v after = some t ∧
      read = ⟨u.worker.pending, v.worker.executed, t.worker.panicked⟩ := by
  obtain ⟨all, s', t', moment, pc, w, rfl, hbegin, ht', hall, hlast, hread, hend⟩ := h
  -- Only from the last of the three places has a reading its answer.
  obtain ⟨p, e, rfl⟩ : ∃ p e, pc = .panicked p e := by
    cases pc with
    | panicked p e => exact ⟨p, e, rfl⟩
    | _ => cases hread
  obtain ⟨first, rest, u, u', rfl, hu, hu', hrest, hwu, hpc⟩ :=
    exists_read (standOf_begin hbegin) ht' (by rw [hlast]; nofun)
  obtain ⟨second, third, v, v', rfl, hv, hv', hthird, hwv, hpc'⟩ :=
    exists_read hpc hrest (by rw [hlast]; nofun)
  have hreads := (((hall.rest hu).2 u' hu').rest hv).2 v' hv'
  have hplace := standOf_panicked hreads hpc' hthird
  rw [hlast] at hplace
  obtain ⟨rfl, rfl⟩ := StatsPc.panicked.inj (Stand.reading.inj (Option.some.inj hplace))
  -- The last step reads the third counter and changes nothing.
  have hsame : t.worker = t'.worker := by
    rcases (effect_of_move hend).actor hlast nofun with ⟨-, hne⟩ | ⟨-, m, x', -, hturn⟩
    · exact absurd rfl hne
    · exact hturn.reading.1
  obtain ⟨-, rfl⟩ := Progress.finished.inj hread
  refine ⟨who.begin .stats :: first, who.step :: second, who.step :: third ++ [who.step], u, v,
    by simp, ?_, ?_, ?_, by rw [hsame]⟩
  · rw [afterMoves, hbegin, Option.bind_some, hu]
  · rw [afterMoves, hu', Option.bind_some, hv]
  · rw [afterMoves_append, afterMoves, hv', Option.bind_some, hthird, Option.bind_some, afterMoves,
      hend]
    rfl

/-! ### Counters that rest -/

theorem isEnqueuing_of_isCounted {x : Stand ι} (h : x.isCounted) : x.isEnqueuing := by
  unfold Stand.isCounted at h
  split at h <;> first | rfl | cases h

/-- With no enqueue half way, a turn neither accepts an item nor changes a counter. -/
theorem rests_of_turn {moment : Moment} {w w' : Worker ι} {d d' : Deeds ι} {x x' : Stand ι}
    (h : Turn moment w d x w' x' d') (hout : ¬ x.isEnqueuing) :
    w'.counters = w.counters ∧ d'.accepted = d.accepted := by
  cases h <;> first | exact ⟨rfl, rfl⟩ | exact absurd rfl hout

theorem Effect.rests (h : s.Effect t m) (hout : ∀ x ∈ s.stands, ¬ x.isEnqueuing) :
    (m = .drain ∨ t.worker.counters = s.worker.counters) ∧
      t.deeds.accepted = s.deeds.accepted := by
  cases h with
  | step u x x' worker deeds hx hturn ht =>
    subst ht
    have hmem : x ∈ s.stands := List.mem_append_left _ (List.mem_of_getElem? hx)
    obtain ⟨hcounters, haccepted⟩ := rests_of_turn hturn (hout x hmem)
    exact ⟨.inr hcounters, haccepted⟩
  | stepInside item x x' worker deeds hd hturn ht =>
    subst ht
    have hx : s.standOf .item = some x := by
      rw [standOf, hd]
      rfl
    obtain ⟨hcounters, haccepted⟩ := rests_of_turn hturn (hout x (mem_stands_of_standOf hx))
    exact ⟨.inr hcounters, haccepted⟩
  | begin u operation hidle ht | beginInside item operation hd ht | finish item unwound hd ht =>
    subst ht
    exact ⟨.inr rfl, rfl⟩
  | take item rest hd hi ht | drain worker drain hnone hinside hthread ht =>
    subst ht
    exact ⟨.inl rfl, rfl⟩

/-- A run in which no enqueue is half way and the worker's own thread changes no counter. -/
def Rests (s : Scene ι) (ns : List (Move ι)) : Prop :=
  AllAlong move (fun u => ∀ x ∈ u.stands, ¬ x.isEnqueuing) s ns ∧
    ∀ before after u v, ns = before ++ .drain :: after → afterMoves move s before = some u →
      u.move .drain = some v → v.worker.counters = u.worker.counters

theorem Rests.front (h : s.Rests (before ++ after)) : s.Rests before := by
  refine ⟨h.1.front, fun first second u v hcut hu hv => ?_⟩
  exact h.2 first (second ++ after) u v (by rw [hcut]; simp) hu hv

theorem Rests.steady (h : s.Rests ns) (ht : afterMoves move s ns = some t) :
    t.worker.counters = s.worker.counters ∧ t.deeds.accepted = s.deeds.accepted := by
  induction ns generalizing s with
  | nil => exact Option.some.inj ht ▸ ⟨rfl, rfl⟩
  | cons m rest ih =>
    obtain ⟨u, hm, hu⟩ := Option.bind_eq_some_iff.mp ht
    obtain ⟨hcounters, haccepted⟩ := (effect_of_move hm).rests h.1.head
    have hsame : u.worker.counters = s.worker.counters := by
      rcases hcounters with rfl | hsame
      · exact h.2 [] rest s u rfl rfl hm
      · exact hsame
    have hrest : u.Rests rest := by
      refine ⟨h.1.2 u hm, fun before after v w hcut hv hw => ?_⟩
      refine h.2 (m :: before) after v w (by rw [hcut, List.cons_append]) ?_ hw
      rw [afterMoves, hm, Option.bind_some, hv]
    obtain ⟨hcounters', haccepted'⟩ := ih hrest hu
    exact ⟨hcounters'.trans hsame, haccepted'.trans haccepted⟩

/-- With no enqueue half way and none of the worker's own updates half done, nothing is counted too
early or twice. -/
theorem exact_of_rest (hout : ∀ x ∈ s.stands, ¬ x.isEnqueuing) (hdrain : s.drain ≠ .settling) :
    s.admitted = s.deeds.accepted.length ∧ s.drain.isSettling.toNat = 0 := by
  have hcounted : s.stands.any Stand.isCounted = false :=
    List.any_eq_false.mpr fun x hx hc => hout x hx (isEnqueuing_of_isCounted hc)
  refine ⟨by rw [admitted, hcounted]; rfl, ?_⟩
  cases hd : s.drain <;> first | rfl | exact absurd hd hdrain

theorem accepted_le (h : CrossCall.Reachable move (· = s) t) :
    s.deeds.accepted.length ≤ t.deeds.accepted.length := (grows_run h).1.length_le

/-- However its three steps fall among the enqueues and the steps of the worker's own thread: a
reading counts every item that was accepted when it began, as long as fewer items are let in than a
word can count, and it counts none as ended that was not accepted when it returned. As long as fewer
are accepted, a later one has no smaller counter of ended items. And with no enqueue beside it and
none of the counters changed or half changed by the worker's own thread, it is exact, as a sum of
words and, as long as a word can count the accepted items, as a sum of numbers. -/
theorem snapshot_loses_no_item (h₀ : s₀.isStart) (hs : afterMoves move s₀ ms = some s)
    (h : Snapshot who s ns read t) :
    (t.admitted < UInt64.size → s.deeds.accepted.length ≤
        read.pending.toNat + read.executed.toNat + read.panicked.toNat) ∧
      read.executed.toNat + read.panicked.toNat ≤ t.deeds.accepted.length ∧
      (∀ between u other later read' v, afterMoves move t between = some u →
        Snapshot other u later read' v → v.deeds.accepted.length < UInt64.size →
        read.executed ≤ read'.executed ∧ read.panicked ≤ read'.panicked) ∧
      (s.Rests ns → s.drain ≠ .settling →
        t.deeds.accepted = s.deeds.accepted ∧
          read.pending + read.executed + read.panicked = .ofNat s.deeds.accepted.length ∧
          (s.deeds.accepted.length < UInt64.size →
            read.pending.toNat + read.executed.toNat + read.panicked.toNat =
              s.deeds.accepted.length)) := by
  have hreach : s.Reachable := .trans (.start h₀) (.of_afterMoves hs)
  obtain ⟨first, second, third, u, v, rfl, hu, hv, ht, rfl⟩ := h.moments
  have hsu := CrossCall.Reachable.of_afterMoves hu
  have huv := CrossCall.Reachable.of_afterMoves hv
  have hvt := CrossCall.Reachable.of_afterMoves ht
  have hureach : u.Reachable := hreach.trans hsu
  have hvreach : v.Reachable := hureach.trans huv
  have htreach : t.Reachable := hvreach.trans hvt
  -- So many are counted as ended at the three moments.
  obtain ⟨n, hnu⟩ := hureach.tallied
  obtain ⟨n', hnv, hle⟩ := hnu.run huv
  obtain ⟨n'', hnt, hle'⟩ := hnv.run hvt
  refine ⟨fun hlt => ?_, ?_, fun between s' other later read' w hs' hread' hlt => ?_,
    fun hrests hdrain => ?_⟩
  · -- What was accepted by the first reading is counted there, and no counter of the ended goes down.
    have hltu : u.admitted < UInt64.size :=
      Nat.lt_of_le_of_lt (hureach.admitted_le (huv.trans hvt)) hlt
    have hltt : t.deeds.accepted.length < UInt64.size :=
      Nat.lt_of_le_of_lt (Nat.le_add_right _ _) hlt
    have hltv : v.deeds.accepted.length < UInt64.size := Nat.lt_of_le_of_lt (accepted_le hvt) hltt
    have hexecuted : v.worker.executed.toNat = n' false :=
      hnv.toNat_charged hvreach.sound hltv false
    have hpanicked : t.worker.panicked.toNat = n'' true :=
      hnt.toNat_charged htreach.sound hltt true
    calc s.deeds.accepted.length
        ≤ u.deeds.accepted.length := accepted_le hsu
      _ ≤ u.unsettled + n false + n true := by
        rw [hureach.tally hnu, admitted]
        omega
      _ ≤ u.unsettled + n' false + n'' true := by
        have hreturned := hle false
        have hunwound := Nat.le_trans (hle true) (hle' true)
        omega
      _ = u.worker.pending.toNat + v.worker.executed.toNat + t.worker.panicked.toNat := by
        rw [hureach.toNat_pending hltu, hexecuted, hpanicked]
  · calc v.worker.executed.toNat + t.worker.panicked.toNat
        ≤ n' false + n'' true :=
          Nat.add_le_add (hnv.toNat_charged_le false) (hnt.toNat_charged_le true)
      _ ≤ n'' false + n'' true := Nat.add_le_add_right (hle' false) _
      _ ≤ t.deeds.accepted.length := hnt.sum_le htreach.sound
  · obtain ⟨first', second', third', u', v', rfl, hu', hv', ht', rfl⟩ := hread'.moments
    have htv' := ((CrossCall.Reachable.of_afterMoves hs').trans (.of_afterMoves hu')).trans
      (.of_afterMoves hv')
    have hv't' := CrossCall.Reachable.of_afterMoves ht'
    exact ⟨hvreach.charged_le (hvt.trans htv') (Nat.lt_of_le_of_lt (accepted_le hv't') hlt) false,
      htreach.charged_le (htv'.trans hv't') hlt true⟩
  · have hfirst := hrests.front.steady hu
    have huv' : afterMoves move s (first ++ second) = some v := by
      rw [afterMoves_append, hu, Option.bind_some, hv]
    have hall : afterMoves move s (first ++ (second ++ third)) = some t := by
      rw [← List.append_assoc, afterMoves_append, huv', Option.bind_some, ht]
    rw [← List.append_assoc] at hrests
    have hsecond := hrests.front.steady huv'
    rw [List.append_assoc] at hrests
    have hthird := hrests.steady hall
    obtain ⟨hpending, -, -⟩ := WorkerStats.mk.inj hfirst.1
    obtain ⟨-, hexecuted, -⟩ := WorkerStats.mk.inj hsecond.1
    obtain ⟨-, -, hpanicked⟩ := WorkerStats.mk.inj hthird.1
    obtain ⟨hadmitted, hsettling⟩ := exact_of_rest hrests.1.head hdrain
    refine ⟨hthird.2, ?_, fun hlt => ?_⟩
    · rw [hpending, hexecuted, hpanicked, hreach.balanced, hadmitted, hsettling, Nat.add_zero]
    · rw [hpending, hexecuted, hpanicked, hreach.toNat_balanced (hadmitted ▸ hlt), hadmitted,
        hsettling, Nat.add_zero]

/-- Two threads, and an item that one of them has handed in and that runs. -/
def oneRuns : Scene Nat where
  worker := { name := "w", thread := 2, pending := 1 }
  threads := [.idle, .idle]
  drain := .running 7 .idle
  deeds := { accepted := [7], started := [7] }

def onePanicked : Scene Nat where
  worker := { name := "w", thread := 2, panicked := 1 }
  threads := [.idle, .idle]
  deeds := { accepted := [7], started := [7], ended := [(7, true)] }

/-- The item is seen as pending and, when it has ended between two steps, as panicked too; a later
reading with nothing beside it is exact. -/
theorem snapshot_loses_no_item_seen_twice :
    ∃ t v : Scene Nat,
      Snapshot (.thread 1) oneRuns
        [.begin 1 .stats, .step 1, .finish true, .drain, .step 1, .step 1] ⟨1, 0, 1⟩ t ∧
      afterMoves move t [.drain] = some onePanicked ∧
      Snapshot (.thread 0) onePanicked [.begin 0 .stats, .step 0, .step 0, .step 0] ⟨0, 0, 1⟩ v ∧
      oneRuns.deeds.accepted.length ≤ 1 + 0 + 1 ∧ 0 + 1 ≤ t.deeds.accepted.length ∧
      ((0 : UInt64) ≤ 0 ∧ (1 : UInt64) ≤ 1) ∧ 0 + 0 + 1 = onePanicked.deeds.accepted.length := by
  have hstart : isStart (ι := Nat)
      { worker := { name := "w", thread := 2 }, threads := [.idle, .idle] } :=
    ⟨⟨"w", 2, rfl, by decide⟩, by decide, rfl, rfl⟩
  have hfirst : Snapshot (.thread 1) oneRuns
      [.begin 1 .stats, .step 1, .finish true, .drain, .step 1, .step 1] ⟨1, 0, 1⟩ _ :=
    ⟨[.step 1, .finish true, .drain, .step 1], _, _, ⟨1, 0, false, 0⟩, _, _, rfl, rfl, rfl,
      by decide, rfl, rfl, rfl⟩
  have hlater : Snapshot (.thread 0) onePanicked [.begin 0 .stats, .step 0, .step 0, .step 0]
      ⟨0, 0, 1⟩ _ :=
    ⟨[.step 0, .step 0], _, _, ⟨0, 0, false, 0⟩, _, _, rfl, rfl, rfl, by decide, rfl, rfl, rfl⟩
  obtain ⟨hleast, hmost, hgrows, -⟩ := snapshot_loses_no_item hstart
    (show afterMoves move { worker := { name := "w", thread := 2 }, threads := [.idle, .idle] }
      [.begin 0 (.enqueue 7), .step 0, .step 0, .step 0, .step 0, .drain] = some oneRuns from rfl)
    hfirst
  obtain ⟨-, -, -, hexact⟩ := snapshot_loses_no_item hstart
    (show afterMoves move { worker := { name := "w", thread := 2 }, threads := [.idle, .idle] }
      [.begin 0 (.enqueue 7), .step 0, .step 0, .step 0, .step 0, .drain, .finish true, .drain,
        .drain] = some onePanicked from rfl)
    hlater
  have hrests : onePanicked.Rests [.begin 0 .stats, .step 0, .step 0, .step 0] := by
    refine ⟨by decide, fun before after u v hcut => ?_⟩
    have hnone : Move.drain ∉ [.begin 0 (.stats : Operation Nat), .step 0, .step 0, .step 0] := by
      decide
    exact absurd (by rw [hcut]; simp) hnone
  exact ⟨_, _, hfirst, rfl, hlater, hleast (by decide), hmost,
    hgrows [.drain] _ _ _ _ _ rfl hlater (by decide), (hexact hrests nofun).2.2 (by decide)⟩

end Scene
end CrossCall.Worker
