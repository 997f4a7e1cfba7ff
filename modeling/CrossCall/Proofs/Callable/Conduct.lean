import CrossCall.Proofs.Callable.Same
import CrossCall.Proofs.Programs
import CrossCall.Script.Build

/-! What equal callables do. Functions without state of one type do the same, and so do pointers to
one address; a method does the same to one object if its type says all there is to say of it. Where
a method is itself a value, a pointer or a closure, its type does not, and then callables can be the
same that do different things. -/

namespace CrossCall.Callable

variable {T τ A σ ρ : Type}

/-- What running a target does, and how much of that can be told without the target. -/
structure Conduct (T τ A σ ρ : Type) where
  run : τ → A → Program σ ρ
  /-- By the type of a function without state. -/
  stateless : T → A → Program σ ρ
  /-- By the address of a function. -/
  pointed : Nat → A → Program σ ρ
  /-- By the type of a method and the object; nothing if the method is a value with state. -/
  method : T → Nat → Option (A → Program σ ρ)

namespace Entry

/-- Running the callable does what can be told of it. -/
def Follows (e : Entry T τ) (conduct : Conduct T τ A σ ρ) : Prop :=
  match e.origin with
  | .free (.stateless type) => conduct.run e.callable.target = conduct.stateless type
  | .free (.pointer address) => conduct.run e.callable.target = conduct.pointed address
  | .free .stateful | .closure => True
  | .bound method object =>
    ∀ does, conduct.method method object = some does → conduct.run e.callable.target = does

/-- With the same arguments and from the same state both come to the same results, values or panics,
and leave the same states. -/
def DoesLike (conduct : Conduct T τ A σ ρ) (e f : Entry T τ) : Prop :=
  ∀ (t : ThreadId) (args : A) (s : σ) (r : Except Payload ρ) (s' : σ),
    (conduct.run e.callable.target args).Alone t s r s' ↔
      (conduct.run f.callable.target args).Alone t s r s'

theorem doesLike_of_run {conduct : Conduct T τ A σ ρ} {e f : Entry T τ}
    (h : conduct.run e.callable.target = conduct.run f.callable.target) :
    e.DoesLike conduct f := by
  intro t args s r s'
  rw [h]

end Entry

namespace Registry

variable [DecidableEq T] {r : Registry T τ} {conduct : Conduct T τ A σ ρ}

/-- Of the live callables of one signature, two that are the same do the same, unless both are bound
to one object with methods of one type that are values with state. -/
theorem same_call_does_the_same (h : r.Reachable) (hd : r.drawn < UInt64.size)
    (hfollows : ∀ e ∈ r.live, e.Follows conduct) {e f : Entry T τ} (he : e ∈ r.live)
    (hf : f ∈ r.live) (hs : e.callable.same f.callable) :
    e.DoesLike conduct f ∨ ∃ method object, e.origin = .bound method object ∧
      f.origin = .bound method object ∧ conduct.method method object = none := by
  obtain ⟨first, hsound⟩ := h.sound hd
  have hcall : e.SameCall id f := hsound.sameCall_of_same he hf (fun _ _ a _ => ⟨a, rfl⟩) hs
  have hfe := hfollows e he
  have hff := hfollows f hf
  rw [Entry.Follows] at hfe hff
  rcases hcall with hmaking | ⟨type, ho, ho'⟩ | ⟨a, ho, ho'⟩ | ⟨method, object, ho, ho'⟩
  · obtain rfl := hsound.clones e he f hf hmaking
    exact .inl (Entry.doesLike_of_run rfl)
  · rw [ho] at hfe
    rw [ho'] at hff
    exact .inl (Entry.doesLike_of_run (hfe.trans hff.symm))
  · rw [show e.origin = _ from ho] at hfe
    rw [show f.origin = _ from ho'] at hff
    exact .inl (Entry.doesLike_of_run (hfe.trans hff.symm))
  · cases hm : conduct.method method object with
    | none => exact .inr ⟨method, object, ho, ho', hm⟩
    | some does =>
      rw [ho] at hfe
      rw [ho'] at hff
      exact .inl (Entry.doesLike_of_run ((hfe does hm).trans (hff does hm).symm))

end Registry
end CrossCall.Callable

namespace CrossCall.Script

open CrossCall.Callable

/-- What the functions and methods of scripts do. Only the methods that are named, and not pointed to
or scaled, are told by their types. -/
def conduct : Conduct CodeType Target (List Value) World Value where
  run := Target.run
  stateless
    | .function f => (Target.named f).run
    | .doubler _ => Target.double.run
    | _ => fun _ => .unwind (.literal "not a function")
  pointed a := (FunctionName.all[a]?).elim (fun _ => .unwind (.literal "not a function"))
    fun f => (Target.named f).run
  method
    | .method m, object => some (Target.method object m).run
    | _, _ => none

open Registry in
theorem same_call_does_the_same_at_a_reused_address :
    ∃ (r : Registry CodeType Target) (a b p q c d : Entry CodeType Target),
      afterMoves move { next := 1 } reusedAddress = some r ∧ r.live = [a, b, p, q, c, d] ∧
      a.callable.same b.callable ∧ a.DoesLike conduct b ∧ c.callable.same d.callable ∧
      c.DoesLike conduct d := by
  obtain ⟨r, hr, hreach, hlive, hd⟩ := exists_reusedAddress
  have hfollows : ∀ e ∈ r.live, e.Follows conduct := by
    rw [hlive]
    simp only [atReusedAddress, List.forall_mem_cons]
    refine ⟨?_, ?_, rfl, rfl, trivial, trivial, List.forall_mem_nil _⟩
    all_goals exact fun does hdoes => Option.some.inj hdoes
  have hmem : ∀ e ∈ atReusedAddress, e ∈ r.live := fun e he => hlive ▸ he
  simp only [atReusedAddress, List.forall_mem_cons] at hmem
  obtain ⟨ha, hb, -, -, hc, hd', -⟩ := hmem
  have hlt : r.drawn < UInt64.size := by rw [hd]; decide
  refine ⟨r, _, _, _, _, _, _, hr, hlive, rfl, ?_, rfl, ?_⟩
  · have hab := same_call_does_the_same hreach hlt hfollows ha hb rfl
    refine hab.resolve_right ?_
    rintro ⟨method, object, ho, -, hnone⟩
    obtain ⟨rfl, rfl⟩ := Origin.bound.inj ho
    cases hnone
  · have hcd := same_call_does_the_same hreach hlt hfollows hc hd' rfl
    refine hcd.resolve_right ?_
    rintro ⟨method, object, ho, -, -⟩
    cases ho

/-- A pointer to the deposit and a pointer to the withdrawal, both bound to one account. -/
def twoPointers : List (Registry.Move CodeType Target) :=
  [.allocate 64, .bound (.method 0 .deposit) 1 (.methodPointer 1) 0,
    .bound (.method 0 .withdraw) 1 (.methodPointer 1) 0]

/-- They are the same, and one adds what the other takes away. -/
theorem same_call_deposits_and_withdraws :
    ∃ (r : Registry CodeType Target) (e f : Entry CodeType Target),
      afterMoves Registry.move { next := 1 } twoPointers = some r ∧ r.live = [e, f] ∧
      e.callable.target = (Build.method 0 (.pointer .deposit)).1 ∧
      f.callable.target = (Build.method 0 (.pointer .withdraw)).1 ∧
      e.callable.same f.callable ∧ ¬ e.DoesLike conduct f ∧
      ∃ w w' w'' : World, w.balances = [10] ∧
        (conduct.run e.callable.target [.int 5]).Alone 0 w (.ok (.int 15)) w' ∧
        w'.balances = [15] ∧
        (conduct.run f.callable.target [.int 5]).Alone 0 w (.ok (.int 5)) w'' ∧
        w''.balances = [5] := by
  have hdeposit : ((Target.method 0 .deposit).run [.int 5]).Alone 0 { balances := [10] }
      (.ok (.int 15)) _ :=
    .going ⟨0, 0, false, 0⟩ rfl rfl (.going ⟨0, 0, false, 0⟩ rfl rfl
      (.halted ⟨0, 0, false, 0⟩ rfl rfl))
  have hwithdraw : ((Target.method 0 .withdraw).run [.int 5]).Alone 0 { balances := [10] }
      (.ok (.int 5)) _ :=
    .going ⟨0, 0, false, 0⟩ rfl rfl (.going ⟨0, 0, false, 0⟩ rfl rfl
      (.halted ⟨0, 0, false, 0⟩ rfl rfl))
  refine ⟨_, _, _, rfl, rfl, rfl, rfl, rfl, fun hlike => ?_, _, _, _, rfl, hdeposit, rfl,
    hwithdraw, rfl⟩
  have hlog := (hlike 0 [.int 5] _ _ _).mp hdeposit
  obtain ⟨m, -, hupdate⟩ := Program.Alone.of_atomic hlog
  obtain ⟨m', -, hend⟩ := Program.Alone.of_atomic hupdate
  obtain ⟨hresult, -⟩ := Program.Alone.of_pure hend
  cases hresult

end CrossCall.Script
