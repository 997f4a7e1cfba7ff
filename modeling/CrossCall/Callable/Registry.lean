import CrossCall.Callable
import CrossCall.Concurrent.Reachable

/-!
Callables over time. Callables are made, cloned and dropped, and so are the handles of objects; an
object lives as long as a handle or a callable bound to it, and the address of a dead one may be
given to a new one. Each of these takes one step, in any thread. Beside the callables a registry
keeps where each of them comes from.
-/

namespace CrossCall.Callable

/-- What a callable was made from. Objects are known by their numbers, which no two share. -/
inductive Origin (T : Type) where
  | free (linkage : Linkage T)
  | closure
  | bound (method : T) (object : Nat)
  deriving DecidableEq, Inhabited

structure Entry (T τ : Type) where
  callable : Callable T τ
  /-- Which making of a callable it goes back to. -/
  making : Nat
  origin : Origin T
  deriving Inhabited

def Entry.isBoundTo {T τ : Type} (object : Nat) (e : Entry T τ) : Bool :=
  match e.origin with
  | .bound _ o => o = object
  | _ => false

structure Object where
  address : Nat
  /-- Whether there is a handle of it. -/
  handled : Bool := true
  deriving DecidableEq, Inhabited

structure Registry (T τ : Type) where
  /-- The number that the next closure gets. -/
  next : UInt64
  /-- How many such numbers were drawn. -/
  drawn : Nat := 0
  /-- How many callables were made, clones not counted. -/
  made : Nat := 0
  objects : List Object := []
  live : List (Entry T τ) := []
  deriving Inhabited

namespace Registry

variable {T τ : Type}

inductive Move (T τ : Type) where
  | allocate (address : Nat)
  /-- The last handle of an object goes. -/
  | forget (object : Nat)
  | free (target : τ) (arity : Nat) (linkage : Linkage T)
  | closure (target : τ) (arity : Nat)
  | bound (target : τ) (arity : Nat) (method : T) (object : Nat)
  | clone (entry : Nat)
  | drop (entry : Nat)

/-- Whether an object is alive. -/
def isAlive (r : Registry T τ) (object : Nat) : Bool :=
  r.objects[object]?.any (·.handled) || r.live.any (Entry.isBoundTo object)

/-- Whether a new object may get the address. -/
def isVacant (r : Registry T τ) (address : Nat) : Bool :=
  (List.range r.objects.length).all fun o =>
    !r.isAlive o || r.objects[o]?.all (·.address ≠ address)

/-- A callable was made, for which the counter of closures has moved to `next`. -/
def add (r : Registry T τ) (callable : Callable T τ) (origin : Origin T) (next : UInt64) :
    Registry T τ :=
  { r with
    next
    drawn := if next = r.next then r.drawn else r.drawn + 1
    made := r.made + 1
    live := r.live ++ [{ callable, making := r.made, origin }] }

def move (r : Registry T τ) : Move T τ → Option (Registry T τ)
  | .allocate address =>
    if r.isVacant address then some { r with objects := r.objects ++ [{ address }] } else none
  | .forget o => some { r with objects := r.objects.modify o fun x => { x with handled := false } }
  | .free target arity linkage =>
    let (callable, next) := Callable.free target arity linkage r.next
    some (r.add callable (.free linkage) next)
  | .closure target arity =>
    let (callable, next) := Callable.closure target arity r.next
    some (r.add callable .closure next)
  | .bound target arity method o =>
    match r.objects[o]? with
    | some ⟨address, true⟩ =>
      some (r.add (Callable.bound target arity method address) (.bound method o) r.next)
    | _ => none
  | .clone k => r.live[k]?.map fun e => { r with live := r.live ++ [e] }
  | .drop k => if k < r.live.length then some { r with live := r.live.eraseIdx k } else none

/-- Nothing has been made. -/
def isStart (r : Registry T τ) : Prop :=
  r.drawn = 0 ∧ r.made = 0 ∧ r.objects = [] ∧ r.live = []

/-- However callables and objects have come and gone. -/
def Reachable : Registry T τ → Prop := CrossCall.Reachable move isStart

end Registry
end CrossCall.Callable
