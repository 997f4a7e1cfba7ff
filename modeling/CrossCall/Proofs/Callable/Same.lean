import CrossCall.Delegate
import CrossCall.Proofs.Callable.Groups
import CrossCall.Proofs.Callable.Sound
import CrossCall.Script.Target

/-! Equal callables. Two live callables of one signature are the same if and only if they go back to
one making, or to functions of one stateless type, or to pointers to one function, or to methods of
one type bound to one object. -/

namespace CrossCall.Callable

variable {T τ F : Type}

def Origin.kind : Origin T → Identity.Kind
  | .free (.stateless _) => .free
  | .free (.pointer _) => .pointer
  | .free .stateful | .closure => .closure
  | .bound _ _ => .bound

namespace Entry

/-- The callable was made of a pointer to this function, functions being at these addresses. -/
def PointsTo (address : F → Nat) (e : Entry T τ) (function : F) : Prop :=
  e.origin = .free (.pointer (address function))

/-- One making, one type of function without state, one function pointed to, or methods of one type
on one object. -/
def SameCall (address : F → Nat) (e f : Entry T τ) : Prop :=
  e.making = f.making ∨
    (∃ type, e.origin = .free (.stateless type) ∧ f.origin = .free (.stateless type)) ∨
    (∃ function, e.PointsTo address function ∧ f.PointsTo address function) ∨
    ∃ method object, e.origin = .bound method object ∧ f.origin = .bound method object

end Entry

namespace Origin.Gives

variable {first : UInt64} {r : Registry T τ} {origin : Origin T} {i j : Identity T}

theorem kind_eq (h : origin.Gives first r i) : i.kind = origin.kind := by
  cases h <;> rfl

/-- All but closures have the identity that their origin gives. -/
theorem unique (hi : origin.Gives first r i) (hj : origin.Gives first r j)
    (hkind : origin.kind ≠ .closure) : i = j := by
  cases hi with
  | stateless type => cases hj; rfl
  | pointer address => cases hj; rfl
  | stateful | closure => exact absurd rfl hkind
  | bound method o x hx =>
    cases hj with
    | bound _ _ y hy => rw [Option.some.inj (hx.symm.trans hy)]

theorem of_free {type : T} (h : origin.Gives first r (.free type)) :
    origin = .free (.stateless type) := by
  cases h
  rfl

theorem of_pointer {address : Nat} (h : origin.Gives first r (.pointer address)) :
    origin = .free (.pointer address) := by
  cases h
  rfl

theorem of_bound {method : T} {address : Nat} (h : origin.Gives first r (.bound method address)) :
    ∃ o x, origin = .bound method o ∧ r.objects[o]? = some x ∧ x.address = address := by
  generalize hi : Identity.bound method address = i at h
  cases h with
  | bound m o x hx =>
    cases hi
    exact ⟨o, x, rfl, hx, rfl⟩
  | _ => cases hi

end Origin.Gives

namespace Registry

variable [DecidableEq T] {first : UInt64} {r : Registry T τ} {e f : Entry T τ} {address : F → Nat}

theorem Sound.sameCall_of_same (h : r.Sound first) (he : e ∈ r.live) (hf : f ∈ r.live)
    (hpointers : ∀ e ∈ r.live, ∀ a, e.origin = .free (.pointer a) → ∃ fn, address fn = a)
    (hs : e.callable.same f.callable) : e.SameCall address f := by
  have hid : e.callable.identity = f.callable.identity := (same_iff.mp hs).2
  have hge := h.gives e he
  have hgf := h.gives f hf
  cases hi : f.callable.identity with
  | free type =>
    rw [hi] at hid hgf
    rw [hid] at hge
    exact .inr (.inl ⟨type, hge.of_free, hgf.of_free⟩)
  | pointer a =>
    rw [hi] at hid hgf
    rw [hid] at hge
    obtain ⟨fn, rfl⟩ := hpointers f hf a hgf.of_pointer
    exact .inr (.inr (.inl ⟨fn, hge.of_pointer, hgf.of_pointer⟩))
  | bound method a =>
    rw [hi] at hid hgf
    rw [hid] at hge
    obtain ⟨o, x, ho, hx, hxa⟩ := hge.of_bound
    obtain ⟨o', x', ho', hx', hxa'⟩ := hgf.of_bound
    -- Both objects are alive, so at one address there is one object.
    have hoo : o = o' := h.apart o o' x x' hx hx' (isAlive_of_bound he ho)
      (isAlive_of_bound hf ho') (hxa.trans hxa'.symm)
    subst hoo
    exact .inr (.inr (.inr ⟨method, o, ho, ho'⟩))
  | closure n => exact .inl (h.numbers e he f hf n (hid.trans hi) hi)

theorem Sound.same_of_sameCall (h : r.Sound first) (he : e ∈ r.live) (hf : f ∈ r.live)
    (harity : e.callable.arity = f.callable.arity) (hs : e.SameCall address f) :
    e.callable.same f.callable := by
  have horigin (heq : e.origin = f.origin) (hkind : f.origin.kind ≠ .closure) :
      e.callable.same f.callable := by
    have hge := h.gives e he
    rw [heq] at hge
    exact same_iff.mpr ⟨harity, hge.unique (h.gives f hf) hkind⟩
  rcases hs with hmaking | ⟨type, he', hf'⟩ | ⟨fn, he', hf'⟩ | ⟨method, o, he', hf'⟩
  · obtain rfl := h.clones e he f hf hmaking
    exact same_refl _
  · exact horigin (he'.trans hf'.symm) (by rw [hf']; nofun)
  · exact horigin (he'.trans hf'.symm) (by rw [show f.origin = _ from hf']; nofun)
  · exact horigin (he'.trans hf'.symm) (by rw [hf']; nofun)

theorem Sound.same_iff_sameCall (h : r.Sound first) (he : e ∈ r.live) (hf : f ∈ r.live)
    (hpointers : ∀ e ∈ r.live, ∀ a, e.origin = .free (.pointer a) → ∃ fn, address fn = a)
    (harity : e.callable.arity = f.callable.arity) :
    e.callable.same f.callable ↔ e.SameCall address f :=
  ⟨h.sameCall_of_same he hf hpointers, h.same_of_sameCall he hf harity⟩

/-- Live callables of one signature are the same if and only if they are the same call; pointers to
two functions and callables of two kinds never are. Being the same is an equivalence, what is the
same has one hash, and a hash table of any size puts callables of one signature into one group if and
only if they are the same call. Delegates are the same if they hold to one queue and their callables
are the same call, whatever their bounds and records. -/
theorem same_iff_same_call (h : r.Reachable) (hd : r.drawn < UInt64.size)
    (hinjective : Function.Injective address)
    (hpointers : ∀ e ∈ r.live, ∀ a, e.origin = .free (.pointer a) → ∃ fn, address fn = a) :
    (∀ e ∈ r.live, ∀ f ∈ r.live, e.callable.arity = f.callable.arity →
      (e.callable.same f.callable ↔ e.SameCall address f)) ∧
    (∀ e ∈ r.live, ∀ f ∈ r.live, ∀ fn gn, e.PointsTo address fn → f.PointsTo address gn →
      e.callable.same f.callable → fn = gn) ∧
    (∀ e ∈ r.live, ∀ f ∈ r.live, e.origin.kind ≠ f.origin.kind →
      ¬ e.callable.same f.callable) ∧
    (Equivalence fun a b : Callable T τ => a.same b) ∧
    (∀ (hasher : Hasher T) (a b : Callable T τ), a.same b → a.hash hasher = b.hash hasher) ∧
    (∀ (hasher : Hasher T) (size arity : Nat) (entries : List (Entry T τ)), 0 < size →
      (∀ e ∈ entries, e ∈ r.live ∧ e.callable.arity = arity) →
      ∀ (i j : Nat) (e f : Entry T τ), entries[i]? = some e → entries[j]? = some f →
        (((Table.empty hasher size).groupsFrom 0 (entries.map Entry.callable))[i]? =
          ((Table.empty hasher size).groupsFrom 0 (entries.map Entry.callable))[j]? ↔
            e.SameCall address f)) ∧
    ∀ e ∈ r.live, ∀ f ∈ r.live, e.callable.arity = f.callable.arity →
      ∀ a b : Delegate T τ, a.callable = e.callable → b.callable = f.callable →
        (a.same b ↔ a.queue.map Queue.number = b.queue.map Queue.number ∧
          e.SameCall address f) := by
  obtain ⟨first, hsound⟩ := h.sound hd
  refine ⟨fun e he f hf => hsound.same_iff_sameCall he hf hpointers,
    fun e he f hf fn gn hfn hgn hs => ?_, fun e he f hf hkind hs => ?_,
    ⟨same_refl, fun {a b} hs => same_comm a b ▸ hs, same_trans⟩, fun hasher a b => hash_eq_of_same hasher,
    fun hasher size arity entries hsize hlive i j e f he hf => ?_,
    fun e he f hf harity a b ha hb => ?_⟩
  · have hge := hsound.gives e he
    have hgf := hsound.gives f hf
    rw [hfn, (same_iff.mp hs).2] at hge
    rw [hgn] at hgf
    generalize f.callable.identity = i at hge hgf
    cases hge with
    | pointer => exact hinjective (Linkage.pointer.inj (Origin.free.inj hgf.of_pointer.symm))
  · rw [← (hsound.gives e he).kind_eq, ← (hsound.gives f hf).kind_eq] at hkind
    exact hkind (kind_eq_of_same hs)
  · have hmap {k : Nat} {g : Entry T τ} (hg : entries[k]? = some g) :
        (entries.map Entry.callable)[k]? = some g.callable := by
      rw [List.getElem?_map, hg, Option.map_some]
    obtain ⟨he', hea⟩ := hlive e (List.mem_of_getElem? he)
    obtain ⟨hf', hfa⟩ := hlive f (List.mem_of_getElem? hf)
    rw [Table.groupsFrom_empty hasher hsize, groups_eq_iff (hmap he) (hmap hf)]
    exact hsound.same_iff_sameCall he' hf' hpointers (hea.trans hfa.symm)
  · rw [Delegate.same, ha, hb, Bool.and_eq_true, decide_eq_true_eq,
      hsound.same_iff_sameCall he hf hpointers harity]

open Script

theorem getElem?_address (f : FunctionName) : FunctionName.all[f.address]? = some f := by
  cases f <;> rfl

theorem address_injective : Function.Injective FunctionName.address := by
  intro f g h
  have hg := getElem?_address g
  rw [← h, getElem?_address f] at hg
  exact Option.some.inj hg

/-- An account at the address of one that is gone, with two callables bound to it, and beside them
pointers to two functions and a closure with a clone. -/
def reusedAddress : List (Move CodeType Target) :=
  [.allocate 64, .bound (.method 0 .deposit) 1 (.method .deposit) 0, .forget 0, .drop 0,
    .allocate 64, .bound (.method 1 .deposit) 1 (.method .deposit) 1,
    .bound (.method 1 .deposit) 1 (.method .deposit) 1,
    .free (.named .square) 1 (.pointer FunctionName.square.address),
    .free (.named .cube) 1 (.pointer FunctionName.cube.address), .closure (.adder 2) 1, .clone 4]

/-- What is alive then: the callables bound to the account, the pointers, the closure and its clone. -/
def atReusedAddress : List (Entry CodeType Target) :=
  [⟨.bound (.method 1 .deposit) 1 (.method .deposit) 64, 1, .bound (.method .deposit) 1⟩,
    ⟨.bound (.method 1 .deposit) 1 (.method .deposit) 64, 2, .bound (.method .deposit) 1⟩,
    ⟨⟨.named .square, 1, .pointer 3⟩, 3, .free (.pointer FunctionName.square.address)⟩,
    ⟨⟨.named .cube, 1, .pointer 4⟩, 4, .free (.pointer FunctionName.cube.address)⟩,
    ⟨⟨.adder 2, 1, .closure 1⟩, 5, .closure⟩, ⟨⟨.adder 2, 1, .closure 1⟩, 5, .closure⟩]

theorem exists_reusedAddress : ∃ r : Registry CodeType Target,
    afterMoves move { next := 1 } reusedAddress = some r ∧ r.Reachable ∧
      r.live = atReusedAddress ∧ r.drawn = 1 := by
  have hrun : afterMoves move { next := 1 } reusedAddress = some _ := rfl
  exact ⟨_, hrun, .trans (.start ⟨rfl, rfl, rfl, rfl⟩) (.of_afterMoves hrun), rfl, rfl⟩

theorem same_iff_same_call_at_a_reused_address :
    ∃ (r : Registry CodeType Target) (a b p q c d : Entry CodeType Target),
      afterMoves move { next := 1 } reusedAddress = some r ∧ r.live = [a, b, p, q, c, d] ∧
      a.callable.same b.callable ∧ ¬ p.callable.same q.callable ∧ c.callable.same d.callable := by
  obtain ⟨r, hr, hreach, hlive, hd⟩ := exists_reusedAddress
  have hpointers : ∀ e ∈ r.live, ∀ a, e.origin = .free (.pointer a) →
      ∃ fn, FunctionName.address fn = a := by
    rw [hlive]
    simp [atReusedAddress]
  obtain ⟨hsame, hpoint, -⟩ :=
    same_iff_same_call hreach (by rw [hd]; decide) address_injective hpointers
  rw [hlive] at hsame hpoint
  simp only [atReusedAddress, List.forall_mem_cons] at hsame hpoint
  obtain ⟨⟨-, hab, -⟩, -, -, -, ⟨-, -, -, -, -, hcd, -⟩, -⟩ := hsame
  refine ⟨r, _, _, _, _, _, _, hr, hlive, (hab trivial).mpr ?_, fun hs => ?_, ?_⟩
  · exact .inr (.inr (.inr ⟨_, _, rfl, rfl⟩))
  · have hfn : FunctionName.square = .cube := hpoint.2.2.1.2.2.2.1 _ _ rfl rfl hs
    cases hfn
  · exact (hcd trivial).mpr (.inl rfl)

end Registry
end CrossCall.Callable
