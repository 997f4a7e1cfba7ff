import CrossCall.Proofs.Leads
import CrossCall.Proofs.Machines

/-! Watching one thread of a machine while it performs a program: what is left of the program is
kept beside the machine, until the program has ended and the thread goes on with something else. The
thread comes to the end of the program if, however the threads take turns, the end can always still
be reached, and is never reached with a result and in a state that it must not have. -/

namespace CrossCall

variable {σ α β : Type}

namespace Machine

/-- What thread `t` is to do next. -/
def Runs (machine : Machine σ) (t : ThreadId) (p : Program σ Bool) : Prop :=
  ∃ again, machine.threads[t]? = some ⟨some p, again⟩

/-- All other threads have ended. -/
def IsQuietBut (machine : Machine σ) (ts : List ThreadId) : Prop :=
  ∀ t, t ∉ ts → machine.hasEnded t

/-- Nothing wakes without cause. -/
def Move.isCaused : Move → Bool
  | .step _ stray _ => !stray
  | .tick _ => true

/-- A machine, and what is left of the program that one of its threads performs. -/
structure Watch (σ α : Type) : Type 1 where
  machine : Machine σ
  rest : Program σ α

namespace Watch

def move (t : ThreadId) (w : Watch σ α) : Move → Option (Watch σ α)
  | .tick later => some { w with machine := w.machine.tick later }
  | .step u stray pick =>
    if u = t then
      match w.rest.step ⟨t, w.machine.now, stray, pick⟩ w.machine.shared with
      | .going _ rest => (w.machine.step t stray pick).map (⟨·, rest⟩)
      | _ => none
    else (w.machine.step u stray pick).map (⟨·, w.rest⟩)

/-- The program can come to its end. -/
def CanEnd (t : ThreadId) (w : Watch σ α) : Prop :=
  ∃ ns w' r, afterMoves (move t) w ns = some w' ∧ (∀ n ∈ ns, n.isCaused) ∧ w'.rest.Ended r

end Watch

/-- Thread `t`, which performs `p` and goes on with `k`, comes to the end of `p`; and it has then a
result, and all threads a state, that go together by `Q`. -/
def Comes (machine : Machine σ) (t : ThreadId) (p : Program σ α)
    (k : Except Payload α → Program σ Bool) (Q : Except Payload α → σ → Prop) : Prop :=
  ∀ w, Reachable (Watch.move t) (· = ⟨machine, p⟩) w → w.CanEnd t ∧
    ∀ r, w.rest.Ended r → w.machine.Runs t (k r) ∧ Q r w.machine.shared

/-! ### Single steps -/

variable {machine machine' : Machine σ} {t u : ThreadId} {p q : Program σ Bool} {shared : σ}
  {stray : Bool} {pick : Nat}

theorem step_of_going {again : Program σ Bool} (ht : machine.threads[t]? = some ⟨some p, again⟩)
    (hs : p.step ⟨t, machine.now, stray, pick⟩ machine.shared = .going shared q) :
    machine.step t stray pick = some { machine with
      shared, threads := machine.threads.setIfInBounds t ⟨some q, again⟩ } := by
  simp only [step, ht, hs, bind, Option.bind]

theorem step_of_hasEnded (h : machine.hasEnded t) : machine.step t stray pick = none := by
  rw [hasEnded] at h
  rw [step]
  cases ht : machine.threads[t]? with
  | none => rfl
  | some thread =>
    rw [ht, Option.all_some, Option.isNone_iff_eq_none] at h
    simp [h]

/-- What a thread's step comes to, unless it starts another thread. -/
theorem step_cases {o : Option (Program σ Bool)} {again : Program σ Bool}
    (ht : machine.threads[t]? = some ⟨o, again⟩)
    (hf : ∀ q m s opening again next, o = some q → q.step m s ≠ .forking opening again next)
    (hs : machine.step t stray pick = some machine') :
    ∃ q shared o', o = some q ∧
      machine' = { machine with
        shared, threads := machine.threads.setIfInBounds t ⟨o', again⟩ } ∧
      ((∃ q', q.step ⟨t, machine.now, stray, pick⟩ machine.shared = .going shared q' ∧
        o' = some q') ∨
      shared = machine.shared ∧ ∃ r,
        q.step ⟨t, machine.now, stray, pick⟩ machine.shared = .halted r ∧
        ((r = .ok true ∧ o' = some again) ∨ r ≠ .ok true ∧ o' = none)) := by
  obtain ⟨thread, ht', hs⟩ := Option.bind_eq_some_iff.mp hs
  obtain rfl := Option.some.inj (ht.symm.trans ht')
  obtain ⟨q, rfl, hs⟩ := Option.bind_eq_some_iff.mp hs
  simp only at hs
  split at hs
  · cases hs
  · next hq =>
    obtain rfl := Option.some.inj hs
    exact ⟨q, _, _, rfl, rfl, .inr ⟨rfl, _, hq, .inl ⟨rfl, rfl⟩⟩⟩
  · next r hr hq =>
    obtain rfl := Option.some.inj hs
    exact ⟨q, _, _, rfl, rfl, .inr ⟨rfl, _, hq, .inr ⟨hr, rfl⟩⟩⟩
  · next shared q' hq =>
    obtain rfl := Option.some.inj hs
    exact ⟨q, _, _, rfl, rfl, .inl ⟨q', hq, rfl⟩⟩
  · next hq => exact absurd hq (hf q _ _ _ _ _ rfl)

theorem threads_set {thread : Thread σ} {x : Thread σ} (ht : machine.threads[t]? = some x) :
    (machine.threads.setIfInBounds t thread)[t]? = some thread := by
  have hlt : t < machine.threads.size := (Array.getElem?_eq_some_iff.mp ht).1
  rw [Array.getElem?_setIfInBounds_self_of_lt hlt]

theorem threads_set_ne {thread : Thread σ} (h : t ≠ u) :
    (machine.threads.setIfInBounds t thread)[u]? = machine.threads[u]? :=
  Array.getElem?_setIfInBounds_ne h

/-- A step of one thread, and no start of a thread, leaves what the others are to do. -/
theorem Runs.step_ne (h : machine.Runs t p) (hne : u ≠ t)
    (hs : machine.step u stray pick = some machine') : machine'.Runs t p := by
  obtain ⟨again, ht⟩ := h
  have hlt : t < machine.threads.size := (Array.getElem?_eq_some_iff.mp ht).1
  refine ⟨again, ?_⟩
  obtain ⟨thread, -, hs⟩ := Option.bind_eq_some_iff.mp hs
  obtain ⟨rest, -, hs⟩ := Option.bind_eq_some_iff.mp hs
  simp only at hs
  split at hs
  · cases hs
  · obtain rfl := Option.some.inj hs
    exact (threads_set_ne hne).trans ht
  · obtain rfl := Option.some.inj hs
    exact (threads_set_ne hne).trans ht
  · obtain rfl := Option.some.inj hs
    exact (threads_set_ne hne).trans ht
  · obtain rfl := Option.some.inj hs
    simp only [Array.getElem?_push, Array.size_setIfInBounds, if_neg (Nat.ne_of_lt hlt)]
    exact (threads_set_ne hne).trans ht

theorem IsQuietBut.set {ts : List ThreadId} (h : machine.IsQuietBut ts) (ht : t ∈ ts)
    (shared : σ) (thread : Thread σ) : IsQuietBut { machine with
      shared, threads := machine.threads.setIfInBounds t thread } ts := by
  intro u hu
  have hne : t ≠ u := fun htu => hu (htu ▸ ht)
  have hquiet := h u hu
  rw [hasEnded] at hquiet ⊢
  rwa [threads_set_ne hne]

/-! ### Watched programs -/

namespace Watch

variable {w w' : Watch σ α} {m : Move} {k : Except Payload α → Program σ Bool}

theorem isAround_watched (k : Except Payload α → Program σ Bool) :
    Program.IsAround fun p : Program σ α => p.attempt.bind k :=
  (Program.isAround_bind k).comp Program.isAround_attempt

/-- A step of the watched program, and what is then left of it. -/
theorem move_of_going {rest : Program σ α} (hr : w.machine.Runs t (w.rest.attempt.bind k))
    (hs : w.rest.step ⟨t, w.machine.now, stray, pick⟩ w.machine.shared = .going shared rest) :
    ∃ again, w.machine.threads[t]? = some ⟨some (w.rest.attempt.bind k), again⟩ ∧
      w.move t (.step t stray pick) = some ⟨{ w.machine with
        shared, threads :=
          w.machine.threads.setIfInBounds t ⟨some (rest.attempt.bind k), again⟩ }, rest⟩ := by
  obtain ⟨again, ht⟩ := hr
  have hstep := step_of_going ht (Program.step_around (isAround_watched k) hs)
  refine ⟨again, ht, ?_⟩
  rw [move, if_pos rfl, hs]
  simp only [hstep, Option.map_some]

/-- What a move of the machine is to the watched program. -/
theorem move_cases (hr : w.machine.Runs t (w.rest.attempt.bind k)) (hm : w.move t m = some w') :
    (∃ later, m = .tick later ∧ w' = ⟨w.machine.tick later, w.rest⟩) ∨
    (∃ stray pick shared rest again, m = .step t stray pick ∧
      w.machine.threads[t]? = some ⟨some (w.rest.attempt.bind k), again⟩ ∧
      w.rest.step ⟨t, w.machine.now, stray, pick⟩ w.machine.shared = .going shared rest ∧
      w' = ⟨{ w.machine with
        shared, threads :=
          w.machine.threads.setIfInBounds t ⟨some (rest.attempt.bind k), again⟩ }, rest⟩) ∨
    ∃ u stray pick machine', m = .step u stray pick ∧ u ≠ t ∧
      w.machine.step u stray pick = some machine' ∧ w' = ⟨machine', w.rest⟩ := by
  cases m with
  | tick later => exact .inl ⟨later, rfl, (Option.some.inj hm).symm⟩
  | step u stray pick =>
    by_cases hu : u = t
    · subst hu
      refine .inr (.inl ?_)
      have hmove := hm
      rw [move, if_pos rfl] at hm
      split at hm
      · next shared rest hs =>
        obtain ⟨again, ht, hgoing⟩ := move_of_going hr hs
        exact ⟨stray, pick, shared, rest, again, rfl, ht, hs,
          Option.some.inj (hmove.symm.trans hgoing)⟩
      · cases hm
    · rw [move, if_neg hu] at hm
      obtain ⟨machine', hs, rfl⟩ := Option.map_eq_some_iff.mp hm
      exact .inr (.inr ⟨u, stray, pick, machine', rfl, hu, hs, rfl⟩)

theorem runs_of_move (hr : w.machine.Runs t (w.rest.attempt.bind k)) (hm : w.move t m = some w') :
    w'.machine.Runs t (w'.rest.attempt.bind k) := by
  rcases move_cases hr hm with ⟨later, -, rfl⟩ | ⟨stray, pick, shared, rest, again, -, ht, -, rfl⟩ |
    ⟨u, stray, pick, machine', -, hne, hs, rfl⟩
  · exact hr
  · exact ⟨again, threads_set ht⟩
  · exact hr.step_ne hne hs

theorem CanEnd.after (h : w'.CanEnd t) (hm : w.move t m = some w') (hc : m.isCaused) :
    w.CanEnd t := by
  obtain ⟨ns, v, r, hv, hns, hend⟩ := h
  refine ⟨m :: ns, v, r, ?_, ?_, hend⟩
  · simp [afterMoves, hm, hv]
  · rintro n (_ | ⟨_, hn⟩)
    · exact hc
    · exact hns n hn

/-- Steps of the thread itself bring a program that ends by itself to its end. The clock goes on to
where each of them is possible. -/
theorem canEnd_of_ends {rest : Program σ α} {Q : Except Payload α → σ → Prop} {s : σ}
    (hends : rest.Ends t Eq (fun _ _ => True) Q s) {machine : Machine σ} (hs : machine.shared = s)
    (hr : machine.Runs t (rest.attempt.bind k)) : CanEnd t ⟨machine, rest⟩ := by
  induction hends generalizing machine with
  | @there p s hp =>
    obtain ⟨r, hend, -⟩ := hp s rfl
    exact ⟨[], _, r, rfl, nofun, hend⟩
  | @step p s hcan _ _ ih =>
    subst hs
    obtain ⟨later, hlater⟩ := hcan machine.shared rfl
    have hle : later ≤ (machine.tick later).now := Nat.le_max_right ..
    obtain ⟨s', q, hq⟩ := hlater ⟨t, (machine.tick later).now, false, 0⟩ rfl hle
    obtain ⟨again, ht, hmove⟩ := move_of_going (w := ⟨machine.tick later, p⟩) hr hq
    have hnext : CanEnd t ⟨{ machine.tick later with
        shared := s'
        threads := machine.threads.setIfInBounds t ⟨some (q.attempt.bind k), again⟩ }, q⟩ :=
      ih _ machine.shared s' q rfl rfl hq rfl ⟨again, threads_set ht⟩
    exact .after (m := .tick later) (.after hnext hmove rfl) rfl rfl

end Watch

/-- What every move keeps, what says the right thing of every end, and what never shuts the end out,
is enough. -/
theorem comes_of_invariant {p : Program σ α} {k : Except Payload α → Program σ Bool}
    {Q : Except Payload α → σ → Prop} {I : Watch σ α → Prop}
    (hr : machine.Runs t (p.attempt.bind k)) (hI : I ⟨machine, p⟩)
    (hmove : ∀ w m w', w.machine.Runs t (w.rest.attempt.bind k) → I w → w.move t m = some w' → I w')
    (hend : ∀ w r, I w → w.rest.Ended r → Q r w.machine.shared)
    (hcan : ∀ w, w.machine.Runs t (w.rest.attempt.bind k) → I w → w.CanEnd t) :
    machine.Comes t p k Q := by
  intro w hw
  have hkeep : w.machine.Runs t (w.rest.attempt.bind k) ∧ I w := by
    refine Reachable.keeps
      (P := fun w : Watch σ α => w.machine.Runs t (w.rest.attempt.bind k) ∧ I w) ?_ hw
      fun _ hw => hw ▸ ⟨hr, hI⟩
    exact fun w m w' h hm => ⟨Watch.runs_of_move h.1 hm, hmove w m w' h.1 h.2 hm⟩
  refine ⟨hcan w hkeep.1 hkeep.2, fun r hr => ⟨?_, hend w r hkeep.2 hr⟩⟩
  have hruns := hkeep.1
  generalize w.rest = rest at hr hruns
  cases rest with
  | pure x => cases hr; exact hruns
  | unwind payload => cases hr; exact hruns
  | _ => cases hr

/-- Where no other thread is left, a program that ends by itself comes to its end. -/
theorem comes_of_ends {p : Program σ α} {k : Except Payload α → Program σ Bool}
    {Q : Except Payload α → σ → Prop} (hr : machine.Runs t (p.attempt.bind k))
    (hquiet : machine.IsQuietBut [t])
    (hends : p.Ends t Eq (fun _ _ => True) Q machine.shared) : machine.Comes t p k Q := by
  refine comes_of_invariant (I := fun w => w.machine.IsQuietBut [t] ∧
    w.rest.Ends t Eq (fun _ _ => True) Q w.machine.shared) hr ⟨hquiet, hends⟩ ?_ ?_ ?_
  · rintro w m w' hr ⟨hquiet, hends⟩ hm
    rcases Watch.move_cases hr hm with ⟨later, -, rfl⟩ |
      ⟨stray, pick, shared, rest, again, -, ht, hs, rfl⟩ |
      ⟨u, stray, pick, machine', -, hne, hs, rfl⟩
    · exact ⟨hquiet, hends⟩
    · refine ⟨hquiet.set (List.mem_singleton_self t) shared _, ?_⟩
      cases hends with
      | there hp =>
        obtain ⟨r, hend, -⟩ := hp _ rfl
        exact absurd hs hend.ne_going
      | step _ _ hnext => exact hnext _ _ _ _ rfl rfl hs
    · have hended := hquiet u fun hmem => hne (List.mem_singleton.mp hmem)
      rw [step_of_hasEnded hended] at hs
      cases hs
  · exact fun w r ⟨_, hends⟩ hr => hends.of_ended rfl hr
  · exact fun w hr ⟨_, hends⟩ => Watch.canEnd_of_ends hends rfl hr

/-! ### Two threads -/

section

variable {u : ThreadId} {k : Except Payload α → Program σ Bool} {c c' : Program σ α}
  {o : Option (Program σ Bool)} {again q q' : Program σ Bool} {s s' : σ} {now later : Instant}

/-- Steps of two threads that stand as told, `t` at the watched program and `u` at `o`, bring the
program to its end. -/
def Finishes (t u : ThreadId) (k : Except Payload α → Program σ Bool) (again : Program σ Bool)
    (now : Instant) (c : Program σ α) (o : Option (Program σ Bool)) (s : σ) : Prop :=
  ∀ machine : Machine σ, machine.now = now → machine.shared = s →
    machine.Runs t (c.attempt.bind k) → machine.threads[u]? = some ⟨o, again⟩ →
    Watch.CanEnd t ⟨machine, c⟩

namespace Finishes

theorem ended {r : Except Payload α} (h : c.Ended r) : Finishes t u k again now c o s :=
  fun _ _ _ _ _ => ⟨[], _, r, rfl, nofun, h⟩

theorem tick (hle : now ≤ later) (h : Finishes t u k again later c o s) :
    Finishes t u k again now c o s := by
  rintro machine rfl rfl hruns hother
  have hnow : (machine.tick later).now = later := Nat.max_eq_right hle
  exact .after (m := .tick later) (h (machine.tick later) hnow rfl hruns hother) rfl rfl

theorem own (hne : t ≠ u) (hs : c.step ⟨t, now, false, 0⟩ s = .going s' c')
    (h : Finishes t u k again now c' o s') : Finishes t u k again now c o s := by
  rintro machine rfl rfl hruns hother
  obtain ⟨again', ht, hmove⟩ := Watch.move_of_going (w := ⟨machine, c⟩) hruns hs
  refine .after (h { machine with
    shared := s'
    threads := machine.threads.setIfInBounds t ⟨some (c'.attempt.bind k), again'⟩ } rfl rfl
    ⟨again', threads_set ht⟩ ((threads_set_ne hne).trans hother)) hmove rfl

/-- A step of the other thread, after which it stands at `o'`. -/
theorem move_other {o' : Option (Program σ Bool)} (hne : t ≠ u)
    (hs : ∀ machine : Machine σ, machine.now = now → machine.shared = s →
      machine.threads[u]? = some ⟨o, again⟩ → machine.step u false 0 = some { machine with
        shared := s', threads := machine.threads.setIfInBounds u ⟨o', again⟩ })
    (h : Finishes t u k again now c o' s') : Finishes t u k again now c o s := by
  rintro machine rfl rfl hruns hother
  have hstep := hs machine rfl rfl hother
  have hmove : Watch.move t ⟨machine, c⟩ (.step u false 0) = some ⟨{ machine with
      shared := s', threads := machine.threads.setIfInBounds u ⟨o', again⟩ }, c⟩ := by
    rw [Watch.move, if_neg hne.symm, hstep]
    rfl
  have hnext := h { machine with
    shared := s', threads := machine.threads.setIfInBounds u ⟨o', again⟩ } rfl rfl
    (hruns.step_ne hne.symm hstep) (threads_set hother)
  exact .after hnext hmove rfl

theorem other (hne : t ≠ u) (hs : q.step ⟨u, now, false, 0⟩ s = .going s' q')
    (h : Finishes t u k again now c (some q') s') : Finishes t u k again now c (some q) s := by
  refine move_other hne ?_ h
  rintro machine rfl rfl hother
  exact step_of_going hother hs

theorem turn (hne : t ≠ u) (hs : q.step ⟨u, now, false, 0⟩ s = .halted (.ok true))
    (h : Finishes t u k again now c (some again) s) : Finishes t u k again now c (some q) s := by
  refine move_other hne ?_ h
  rintro machine rfl rfl hother
  simp only [step, hother, hs, bind, Option.bind]

end Finishes
end

/-! ### Results that are made into others -/

section

variable {g : Except Payload α → Except Payload β}

/-- The same machine, and what the watched program ends with is made into something else. -/
def Watch.mapResult (g : Except Payload α → Except Payload β) (w : Watch σ α) : Watch σ β :=
  ⟨w.machine, w.rest.mapResult g⟩

theorem Watch.move_mapResult (w : Watch σ α) (m : Move) :
    (w.mapResult g).move t m = (w.move t m).map (Watch.mapResult g) := by
  cases m with
  | tick later => rfl
  | step u stray pick =>
    simp only [move, mapResult]
    split
    · obtain ⟨machine, rest⟩ := w
      cases rest with
      | pure x => simp only [Program.mapResult_pure, Program.step_ofExcept]; rfl
      | unwind payload => simp only [Program.mapResult_unwind, Program.step_ofExcept]; rfl
      | fork opening again next => rfl
      | perform r pc next =>
        simp only [Program.mapResult_perform, Program.step]
        cases r.step ⟨t, machine.now, stray, pick⟩ machine.shared pc with
        | blocked => rfl
        | going s pc' => simp only [Option.map_map]; rfl
        | finished s x => simp only [Option.map_map]; rfl
    · simp only [Option.map_map]
      rfl

theorem Watch.CanEnd.mapResult {w : Watch σ α} (h : w.CanEnd t) : (w.mapResult g).CanEnd t := by
  obtain ⟨ns, w', r, hw', hns, hend⟩ := h
  refine ⟨ns, w'.mapResult g, g r, ?_, hns, hend.mapResult g⟩
  clear hns
  induction ns generalizing w with
  | nil => exact congrArg (Option.map (Watch.mapResult g)) hw'
  | cons m rest ih =>
    obtain ⟨v, hm, hv⟩ := Option.bind_eq_some_iff.mp hw'
    refine Option.bind_eq_some_iff.mpr ⟨v.mapResult g, ?_, ih hv⟩
    rw [Watch.move_mapResult, hm, Option.map_some]

theorem Comes.mono {p : Program σ α} {k : Except Payload α → Program σ Bool}
    {Q Q' : Except Payload α → σ → Prop} (h : machine.Comes t p k Q) (hQ : ∀ r s, Q r s → Q' r s) :
    machine.Comes t p k Q' := by
  intro w hw
  obtain ⟨hcan, hend⟩ := h w hw
  refine ⟨hcan, fun r hr => ?_⟩
  obtain ⟨hruns, hr⟩ := hend r hr
  exact ⟨hruns, hQ _ _ hr⟩

theorem Comes.mapResult {p : Program σ α} {k : Except Payload β → Program σ Bool}
    {Q : Except Payload α → σ → Prop} (h : machine.Comes t p (fun r => k (g r)) Q) :
    machine.Comes t (p.mapResult g) k fun r s => ∃ r₀, r = g r₀ ∧ Q r₀ s := by
  intro w' hw'
  have himage : ∃ w, w' = Watch.mapResult g w ∧ Reachable (Watch.move t) (· = ⟨machine, p⟩) w := by
    refine Reachable.keeps (P := fun w' => ∃ w, w' = Watch.mapResult g w ∧
      Reachable (Watch.move t) (· = ⟨machine, p⟩) w) ?_ hw' fun _ hs => ⟨⟨machine, p⟩, hs, .refl _⟩
    rintro _ m w' ⟨w, rfl, hw⟩ hm
    rw [Watch.move_mapResult] at hm
    obtain ⟨v, hv, rfl⟩ := Option.map_eq_some_iff.mp hm
    exact ⟨v, rfl, .move m hw hv⟩
  obtain ⟨w, rfl, hw⟩ := himage
  obtain ⟨hcan, hend⟩ := h w hw
  refine ⟨hcan.mapResult, fun r' hr' => ?_⟩
  obtain ⟨r, hr, rfl⟩ := Program.exists_ended_of_mapResult hr'
  obtain ⟨hruns, hQ⟩ := hend r hr
  exact ⟨hruns, r, rfl, hQ⟩

end

end Machine
end CrossCall
