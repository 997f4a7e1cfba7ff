import CrossCall.Proofs.Call.Sound

/-! Calls do not meet. Every move is a step of one call at most, and leaves of all others the
parties, the items and the attempts as they are. Where a caller stands is changed by the queue's
answer and by the caller's own steps alone. -/

namespace CrossCall.Call

variable {A V : Type}

namespace Scene

variable {s t : Scene A V} {m : Move A V} {i k : Nat} {p : Party A V}

theorem accept_cases (h : s.move (.accept i) = some t) :
    t = s.putCaller i (.collecting none (.waiting .arriving)) := by
  cases change_of_move h
  rfl

theorem refuse_cases {error : DispatchError} (h : s.move (.refuse i error) = some t) :
    s.isDoneWith i ∧ t = s.putCaller i (.returned (.error (.dispatch error))) := by
  cases change_of_move h with
  | refuse _ _ p hp hc hd => exact ⟨hd, rfl⟩

theorem drop_cases (h : s.move (.drop k) = some t) :
    ∃ e, s.items[k]? = some e ∧ t = { s with items := s.items.eraseIdx k } := by
  cases change_of_move h with
  | drop _ e he => exact ⟨e, he, rfl⟩

theorem take_cases {thread : ThreadId} (h : s.move (.take thread k false) = some t) :
    ∃ e, s.items[k]? = some e ∧ t = { s with
      items := s.items.eraseIdx k
      attempts := s.attempts ++ [{ thread, envelope := e }] } := by
  cases change_of_move h with
  | take _ _ _ e he => exact ⟨e, he, rfl⟩

theorem finish_cases {r : Except Payload V} (h : s.move (.finish k r) = some t) :
    ∃ a, s.attempts[k]? = some a ∧ a.stand = .running ∧
      t = s.putAttempt k (.concluding r .locking) := by
  cases change_of_move h with
  | finish _ _ a ha hrun => exact ⟨a, ha, hrun, rfl⟩

theorem caller_cases {stray : Bool} (h : s.move (.stepCaller i stray) = some t) :
    ∃ call caller, t = (s.putCall i call).putCaller i caller := by
  cases change_of_move h with
  | stepCaller _ _ p call caller => exact ⟨call, caller, rfl⟩

/-- The call that a move is a step of. -/
def callOf (s : Scene A V) : Move A V → Option Nat
  | .launch _ _ _ => some s.parties.length
  | .accept i | .refuse i _ | .stepCaller i _ => some i
  | .take _ k _ | .drop k => s.items[k]?.map Envelope.call
  | .stepAttempt k _ | .finish k _ => s.attempts[k]?.map (·.envelope.call)
  | .tick _ => none

/-- Nothing of call `i` differs. -/
structure Spares (s : Scene A V) (i : Nat) (t : Scene A V) : Prop where
  party : t.parties[i]? = s.parties[i]?
  items : t.items.filter (·.call = i) = s.items.filter (·.call = i)
  attempts : t.attempts.filter (·.envelope.call = i) = s.attempts.filter (·.envelope.call = i)

theorem filter_eraseIdx_ne {items : List (Envelope A)} {e : Envelope A} (h : items[k]? = some e)
    (hi : e.call ≠ i) : (items.eraseIdx k).filter (·.call = i) = items.filter (·.call = i) := by
  obtain ⟨before, after, hs, -, -, hr⟩ := exists_sides h
  rw [hr, hs]
  simp [hi]

theorem filter_putAttempt_ne {a : Attempt A V} (h : s.attempts[k]? = some a)
    (hi : a.envelope.call ≠ i) (stand : TargetStand V) :
    (s.putAttempt k stand).attempts.filter (·.envelope.call = i) =
      s.attempts.filter (·.envelope.call = i) := by
  obtain ⟨before, after, hs, -, hm, -⟩ := exists_sides h
  simp only [putAttempt, hm]
  simp [hs, hi]

theorem spares_of_move (h : s.move m = some t) (hi : s.callOf m ≠ some i) : s.Spares i t := by
  cases change_of_move h with
  | launch thread args bound =>
    have hne : s.parties.length ≠ i := fun he => hi (congrArg some he)
    refine ⟨?_, by simp [hne], rfl⟩
    rcases Nat.lt_or_gt_of_ne hne with hlt | hlt
    · have hnone : (s.parties ++ [{ thread := thread, args, bound }])[i]? = none := by
        rw [List.getElem?_eq_none_iff, List.length_append, List.length_singleton]
        exact hlt
      exact hnone.trans (List.getElem?_eq_none_iff.mpr (Nat.le_of_lt hlt)).symm
    · exact List.getElem?_append_left hlt
  | accept j | refuse j => exact ⟨parties_modify_ne _ fun he => hi (congrArg some he), rfl, rfl⟩
  | take thread j keep e he =>
    have hne : e.call ≠ i := fun hei => hi (by rw [callOf, he, Option.map_some, hei])
    refine ⟨rfl, ?_, by simp [hne]⟩
    cases keep with
    | true => rfl
    | false => exact filter_eraseIdx_ne he hne
  | drop j e he =>
    refine ⟨rfl, filter_eraseIdx_ne he fun hei => hi ?_, rfl⟩
    rw [callOf, he, Option.map_some, hei]
  | stepCaller j stray q call caller hq hstep =>
    have hne : j ≠ i := fun he => hi (congrArg some he)
    refine ⟨?_, rfl, rfl⟩
    exact (parties_modify_ne (s := s.putCall j call) _ hne).trans (parties_modify_ne _ hne)
  | stepAttempt j pick a q call stand ha hq hstep =>
    have hne : a.envelope.call ≠ i := fun hei => hi (by rw [callOf, ha, Option.map_some, hei])
    exact ⟨parties_modify_ne _ hne, rfl, filter_putAttempt_ne (s := s.putCall _ _) ha hne stand⟩
  | finish j r a ha hrun =>
    have hne : a.envelope.call ≠ i := fun hei => hi (by rw [callOf, ha, Option.map_some, hei])
    exact ⟨rfl, rfl, filter_putAttempt_ne ha hne _⟩
  | tick later => exact ⟨rfl, rfl, rfl⟩

/-! ### What moves a caller -/

theorem parties_put (hp : s.parties[i]? = some p) (call : Call V) (caller : CallerStand V) :
    ((s.putCall i call).putCaller i caller).parties[i]? = some { p with call, caller } :=
  parties_modify_self (s := s.putCall i call) _ (parties_modify_self _ hp)

inductive CallerMove (s : Scene A V) (i : Nat) (p : Party A V) (t : Scene A V) :
    Move A V → Prop where
  | rest (m : Move A V) (q : Party A V) : t.parties[i]? = some q → q.caller = p.caller →
      CallerMove s i p t m
  | accept : p.caller = .handing → t = s.putCaller i (.collecting none (.waiting .arriving)) →
      CallerMove s i p t (.accept i)
  | refuse (error : DispatchError) : p.caller = .handing →
      t = s.putCaller i (.returned (.error (.dispatch error))) →
      CallerMove s i p t (.refuse i error)
  | step (stray : Bool) (call : Call V) (caller : CallerStand V) :
      CallerStep p.bound ⟨p.thread, s.now, stray, 0⟩ p.call p.caller call caller →
      t = (s.putCall i call).putCaller i caller → CallerMove s i p t (.stepCaller i stray)

theorem callerMove_of_move (h : s.move m = some t) (hp : s.parties[i]? = some p) :
    s.CallerMove i p t m := by
  by_cases hi : s.callOf m = some i
  · cases change_of_move h with
    | launch thread args bound =>
      refine .rest _ p ?_ rfl
      rw [List.getElem?_append_left (List.getElem?_eq_some_iff.mp hp).1, hp]
    | accept j q hq hc =>
      obtain rfl := Option.some.inj hi
      obtain rfl : p = q := Option.some.inj (hp.symm.trans hq)
      exact .accept hc rfl
    | refuse j error q hq hc =>
      obtain rfl := Option.some.inj hi
      obtain rfl : p = q := Option.some.inj (hp.symm.trans hq)
      exact .refuse error hc rfl
    | stepCaller j stray q call caller hq hstep =>
      obtain rfl := Option.some.inj hi
      obtain rfl : p = q := Option.some.inj (hp.symm.trans hq)
      exact .step stray call caller hstep rfl
    | stepAttempt j pick a q call stand ha hq hstep =>
      obtain rfl : a.envelope.call = i := by
        rwa [callOf, ha, Option.map_some, Option.some.injEq] at hi
      exact .rest _ _ (parties_modify_self _ hp) rfl
    | take | drop | finish => exact .rest _ p hp rfl
    | tick later => cases hi
  · exact .rest m p ((spares_of_move h hi).party.trans hp) rfl

end Scene
end CrossCall.Call
