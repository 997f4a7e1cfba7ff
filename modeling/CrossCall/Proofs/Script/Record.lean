import CrossCall.Proofs.Call.Interference
import CrossCall.Proofs.Script.Paths
import Mathlib.Data.List.Induction

/-! The record of a handle. It is the outcome of the last recorded call through this handle that
had one; a call that unwinds into the caller leaves the outcome of an earlier call behind it, and
only then does the record not tell how the last call ended. -/

namespace CrossCall.Delegate

variable {T τ : Type}

/-- The handles that a use is about. -/
def Use.handles : Use → List Nat
  | .invoke k _ | .tryInvoke k _ | .asyncInvoke k _ | .clone k => [k]
  | .compare k j => [k, j]

/-- How it ended, if it is a recorded call through this handle. -/
def Use.ending? (k : Nat) : Use → Option Ending
  | .invoke handle ending => if handle = k then some ending else none
  | _ => none

/-- Each use is of handles that are there by then. -/
def AreThere : List (Delegate T τ) → List Use → Prop
  | _, [] => True
  | handles, use :: rest =>
    (∀ k ∈ use.handles, k < handles.length) ∧ AreThere (afterUse handles use) rest

/-- The outcome of the last recorded call through a handle that had one. -/
def lastOutcome (k : Nat) (uses : List Use) : Option (Except InvokeError Value) :=
  uses.reverse.findSome? fun use => (use.ending? k).bind Except.toOption

/-- What a delegate shows is how this call ended: with a value, with an error, or with neither. -/
structure Shows (d : Delegate T τ) (call : Option Ending) : Prop where
  isSuccess : d.isSuccess ↔ ∃ v, call = some (.ok (.ok v))
  returnValue : ∀ v, d.returnValue = some v ↔ call = some (.ok (.ok v))
  lastError : ∀ error, d.lastError = some error ↔ call = some (.ok (.error error))

variable {handles : List (Delegate T τ)} {d : Delegate T τ} {k : Nat} {use : Use}
  {uses more : List Use} {ending : Ending}

theorem shows_iff (d : Delegate T τ) (call : Option Ending) :
    d.Shows call ↔ d.last = call.bind Except.toOption := by
  obtain ⟨callable, queue, bound, last⟩ := d
  constructor
  · intro h
    rcases last with _ | error | v
    · rcases call with _ | p | error | v
      · rfl
      · rfl
      · cases (h.lastError error).mpr rfl
      · cases (h.returnValue v).mpr rfl
    · rw [(h.lastError error).mp rfl]
      rfl
    · rw [(h.returnValue v).mp rfl]
      rfl
  · intro h
    subst h
    rcases call with _ | p | error | v
    · exact ⟨by simp [isSuccess], by simp [returnValue], by simp [lastError]⟩
    · exact ⟨by simp [isSuccess, Except.toOption], by simp [returnValue, Except.toOption],
        by simp [lastError, Except.toOption]⟩
    · exact ⟨by simp [isSuccess, Except.toOption], by simp [returnValue, Except.toOption],
        by simp [lastError, Except.toOption]⟩
    · exact ⟨by simp [isSuccess, Except.toOption], by simp [returnValue, Except.toOption],
        by simp [lastError, Except.toOption]⟩

theorem last_afterInvoke (d : Delegate T τ) (ending : Ending) :
    (d.afterInvoke ending).1.last = ending.toOption.or d.last := by
  cases ending <;> rfl

/-! ### The last call, use by use -/

theorem afterUses_concat (handles : List (Delegate T τ)) (uses : List Use) (use : Use) :
    afterUses handles (uses ++ [use]) = afterUse (afterUses handles uses) use :=
  List.foldl_append

theorem lastEnding_concat (k : Nat) (uses : List Use) (use : Use) :
    lastEnding k (uses ++ [use]) = (use.ending? k).or (lastEnding k uses) := by
  rw [lastEnding, List.reverse_append]
  cases use with
  | invoke handle ending =>
    by_cases h : handle = k
    · simp [Use.ending?, h]
    · simp [Use.ending?, lastEnding, h]
  | _ => rfl

theorem lastOutcome_concat (k : Nat) (uses : List Use) (use : Use) :
    lastOutcome k (uses ++ [use]) =
      ((use.ending? k).bind Except.toOption).or (lastOutcome k uses) := by
  rw [lastOutcome, List.reverse_append]
  cases h : (use.ending? k).bind Except.toOption <;> simp [lastOutcome, h]

/-- The last call either has an outcome, which is the last one then, or it unwinds. -/
theorem lastOutcome_of_lastEnding (k : Nat) (uses : List Use) :
    (lastEnding k uses = none → lastOutcome k uses = none) ∧
      ∀ outcome, lastEnding k uses = some (.ok outcome) → lastOutcome k uses = some outcome := by
  induction uses using List.reverseRecOn with
  | nil => exact ⟨fun _ => rfl, nofun⟩
  | append_singleton uses use ih =>
    rw [lastEnding_concat, lastOutcome_concat]
    cases use.ending? k with
    | none => exact ih
    | some ending =>
      refine ⟨nofun, fun outcome h => ?_⟩
      obtain rfl : ending = .ok outcome := Option.some.inj h
      rfl

/-! ### The record, use by use -/

/-- A use changes the record of a handle if it is a recorded call through it that has an
outcome. -/
theorem last_afterUse (hd : handles[k]? = some d) (use : Use) :
    ∃ d', (afterUse handles use)[k]? = some d' ∧ d'.setup = d.setup ∧
      d'.last = ((use.ending? k).bind Except.toOption).or d.last := by
  cases use with
  | invoke handle ending =>
    by_cases h : handle = k
    · subst h
      refine ⟨(d.afterInvoke ending).1, ?_, setup_afterInvoke d ending, ?_⟩
      · simp [afterUse, hd]
      · simp [Use.ending?, last_afterInvoke]
    · refine ⟨d, ?_, rfl, ?_⟩
      · simp [afterUse, hd, h]
      · simp [Use.ending?, h]
  | clone handle =>
    refine ⟨d, ?_, rfl, rfl⟩
    exact (List.getElem?_append_left (List.getElem?_eq_some_iff.mp hd).1).trans hd
  | tryInvoke | asyncInvoke | compare => exact ⟨d, hd, rfl, rfl⟩

/-- A handle that is new is a clone, and has no record. -/
theorem last_of_new (hk : handles.length ≤ k) (hd : (afterUse handles use)[k]? = some d) :
    d.last = none := by
  cases use with
  | clone handle =>
    rw [afterUse, List.getElem?_append_right hk] at hd
    obtain ⟨c, -, rfl⟩ := Option.map_eq_some_iff.mp (Option.mem_toList.mp (List.mem_of_getElem? hd))
    rfl
  | invoke handle ending =>
    have hlt := (List.getElem?_eq_some_iff.mp hd).1
    rw [afterUse, List.length_modify] at hlt
    omega
  | tryInvoke | asyncInvoke | compare =>
    have hlt := (List.getElem?_eq_some_iff.mp hd).1
    rw [afterUse] at hlt
    omega

theorem AreThere.concat (h : AreThere handles (uses ++ [use])) :
    AreThere handles uses ∧ ∀ k ∈ use.handles, k < (afterUses handles uses).length := by
  induction uses generalizing handles with
  | nil => exact ⟨trivial, h.1⟩
  | cons first rest ih =>
    obtain ⟨hrest, huse⟩ := ih h.2
    exact ⟨⟨h.1, hrest⟩, huse⟩

theorem last_afterUses (hnew : ∀ d ∈ handles, d.last = none) (hthere : AreThere handles uses)
    (k : Nat) :
    (∀ d, (afterUses handles uses)[k]? = some d → d.last = lastOutcome k uses) ∧
      ((afterUses handles uses).length ≤ k → lastOutcome k uses = none) := by
  induction uses using List.reverseRecOn with
  | nil => exact ⟨fun d hd => hnew d (List.mem_of_getElem? hd), fun _ => rfl⟩
  | append_singleton uses use ih =>
    obtain ⟨hbefore, huse⟩ := hthere.concat
    obtain ⟨hrecord, hnone⟩ := ih hbefore
    rw [afterUses_concat, lastOutcome_concat]
    by_cases hk : k < (afterUses handles uses).length
    · obtain ⟨d', hd', -, hlast⟩ := last_afterUse (List.getElem?_eq_getElem hk) use
      rw [hrecord _ (List.getElem?_eq_getElem hk)] at hlast
      refine ⟨fun d hd => ?_, fun hle => ?_⟩
      · exact Option.some.inj (hd.symm.trans hd') ▸ hlast
      · rw [List.getElem?_eq_none hle] at hd'
        cases hd'
    · have hnoCall : use.ending? k = none := by
        cases use with
        | invoke handle ending =>
          have hlt := huse handle (.head _)
          exact if_neg (by omega)
        | _ => rfl
      have hout := hnone (by omega)
      rw [hnoCall, hout]
      exact ⟨fun d hd => last_of_new (by omega) hd, fun _ => rfl⟩

/-- Only a recorded call through a handle changes its record. -/
theorem last_of_others (hd : handles[k]? = some d) (hmore : ∀ use ∈ more, use.ending? k = none) :
    ∃ d', (afterUses handles more)[k]? = some d' ∧ d'.setup = d.setup ∧ d'.last = d.last := by
  induction more generalizing handles d with
  | nil => exact ⟨d, hd, rfl, rfl⟩
  | cons use rest ih =>
    obtain ⟨c, hc, hsetup, hlast⟩ := last_afterUse hd use
    obtain ⟨d', hd', hsetup', hlast'⟩ := ih hc fun u hu => hmore u (.tail _ hu)
    rw [hmore use (.head _)] at hlast
    exact ⟨d', hd', hsetup'.trans hsetup, hlast'.trans hlast⟩

end CrossCall.Delegate

namespace CrossCall.Script

open CrossCall.Delegate

variable {handles : List Delegate} {uses : List Use} {k : Nat} {d : Delegate}

/-- However new handles are used, with calls that end in any way. What a handle shows is how the
last recorded call through it ended that had an outcome, a value or an error. It is how the very
last one ended unless that one unwound and left behind the outcome of an earlier one. A handle never
shows both a value and an error. A call that is recorded is one that is tried, whose outcome
replaces the record: when it returns, it gives what the handle then shows. Of all other uses, and of
uses of other handles, none changes the record; and a clone, set up like its original, begins
without one. -/
theorem record_is_the_last_outcome (hnew : ∀ d ∈ handles, d.last = none)
    (hthere : AreThere handles uses) (hd : (afterUses handles uses)[k]? = some d) :
    d.Shows ((lastOutcome k uses).map .ok) ∧
      (d.Shows (lastEnding k uses) ↔
        ∀ p, lastEnding k uses = some (.error p) → lastOutcome k uses = none) ∧
      (d.isSuccess = d.returnValue.isSome ∧ (d.returnValue = none ∨ d.lastError = none)) ∧
      (∀ args, invoke d args = (tryInvoke d args).mapResult (fun r => .ok (d.afterInvoke r)) ∧
        asyncInvoke d args = (tryInvoke d args).mapResult (·.map Except.toOption)) ∧
      (∀ ending v, (d.afterInvoke ending).2 = .ok v →
        (d.afterInvoke ending).1.Shows (some ending) ∧
          v = (d.afterInvoke ending).1.returnValue) ∧
      (∀ more, (∀ use ∈ more, use.ending? k = none) →
        ∃ d', (afterUses handles (uses ++ more))[k]? = some d' ∧ d'.setup = d.setup ∧
          d'.last = d.last) ∧
      ∃ c, (afterUses handles (uses ++ [.clone k]))[(afterUses handles uses).length]? = some c ∧
        c.setup = d.setup ∧ c.Shows none := by
  have hrecord : d.last = lastOutcome k uses := (last_afterUses hnew hthere k).1 d hd
  refine ⟨?_, ?_, ⟨?_, ?_⟩, fun args => ⟨invoke_eq d args, asyncInvoke_eq d args⟩,
    fun ending v h => ?_, fun more hmore => ?_, d.clone, ?_, rfl, (shows_iff _ _).mpr rfl⟩
  · rw [shows_iff, hrecord]
    cases lastOutcome k uses <;> rfl
  · obtain ⟨hnone, hsome⟩ := lastOutcome_of_lastEnding k uses
    rw [shows_iff, hrecord]
    rcases hlast : lastEnding k uses with _ | p | outcome
    · exact ⟨fun _ _ => nofun, fun _ => hnone hlast⟩
    · exact ⟨fun h _ _ => h, fun h => h p rfl⟩
    · exact ⟨fun _ _ => nofun, fun _ => hsome outcome hlast⟩
  · rcases hlast : d.last with _ | error | v <;> simp [isSuccess, returnValue, hlast]
  · rcases hlast : d.last with _ | error | v <;> simp [returnValue, lastError, hlast]
  · rcases ending with p | error | v'
    · cases h
    · obtain rfl := Except.ok.inj h
      exact ⟨(shows_iff _ _).mpr rfl, rfl⟩
    · obtain rfl := Except.ok.inj h
      exact ⟨(shows_iff _ _).mpr rfl, rfl⟩
  · rw [afterUses, List.foldl_append]
    exact last_of_others hd hmore
  · rw [afterUses_concat, afterUse, hd, List.getElem?_append_right (Nat.le_refl _), Nat.sub_self]
    rfl

/-- A delegate that halves even numbers where it is called. -/
def halver : Delegate := .direct ⟨.named .halve, 1, .free (.function .halve)⟩

/-- A value, a clone whose first call unwinds, and a call that is only tried. -/
def halvedAndCloned : List Use :=
  [.invoke 0 (.ok (.ok (.int 2))), .clone 0, .invoke 1 (.error (.made "odd: 3")),
    .tryInvoke 0 (.ok (.error .timedOut))]

theorem record_is_the_last_outcome_of_a_clone :
    ∃ d c : Delegate, (∀ d ∈ [halver], d.last = none) ∧ AreThere [halver] halvedAndCloned ∧
      afterUses [halver] halvedAndCloned = [d, c] ∧
      d.Shows (some (.ok (.ok (.int 2)))) ∧ c.Shows (lastEnding 1 halvedAndCloned) := by
  have hnew : ∀ d ∈ [halver], d.last = none := by
    intro d hd
    obtain rfl := List.mem_singleton.mp hd
    rfl
  have hthere : AreThere [halver] halvedAndCloned :=
    ⟨by decide, by decide, by decide, by decide, trivial⟩
  refine ⟨_, _, hnew, hthere, rfl, (record_is_the_last_outcome (k := 0) hnew hthere rfl).1,
    (record_is_the_last_outcome (k := 1) hnew hthere rfl).2.1.mpr fun _ _ => rfl⟩

/-- A call that unwinds into the caller leaves what an earlier one has recorded. -/
theorem record_outlives_a_call_that_unwinds :
    ∃ (d : Delegate) (w w' : World), halver.last = none ∧
      (invoke halver [.int 4]).Alone 0 {} (.ok (d, .ok (some (.int 2)))) w ∧
      (invoke d [.int 3]).Alone 0 w (.ok (d, .error (.made "odd: 3"))) w' ∧
      afterUses [halver] [.invoke 0 (.ok (.ok (.int 2))), .invoke 0 (.error (.made "odd: 3"))] =
        [d] ∧
      d.isSuccess ∧ d.returnValue = some (.int 2) ∧
      ¬ d.Shows (lastEnding 0
        [.invoke 0 (.ok (.ok (.int 2))), .invoke 0 (.error (.made "odd: 3"))]) := by
  refine ⟨halver.record (.ok (.int 2)), _, _, rfl, .going ⟨0, 0, false, 0⟩ rfl rfl
    (.halted ⟨0, 0, false, 0⟩ rfl rfl), .going ⟨0, 0, false, 0⟩ rfl rfl
    (.halted ⟨0, 0, false, 0⟩ rfl rfl), rfl, rfl, rfl, fun h => ?_⟩
  cases (h.returnValue (.int 2)).mp rfl

end CrossCall.Script
