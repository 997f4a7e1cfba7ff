/-!
Callables: what to call, with an identity that tells which two callables count as the same call. A
function without state is known by its type, a pointer by the address it points to, a method by its
type and the object it is bound to; anything else gets a number of its own, which only its clones
share.
-/

namespace CrossCall

/-- Types of functions and methods are told apart by values of `T`. -/
inductive Identity (T : Type) where
  | free (type : T)
  | pointer (address : Nat)
  | bound (method : T) (object : Nat)
  | closure (number : UInt64)
  deriving DecidableEq, Inhabited

/-- What can be told of a function without calling it. -/
inductive Linkage (T : Type) where
  | stateless (type : T)
  /-- A pointer to a function of exactly the callable's own signature. -/
  | pointer (address : Nat)
  | stateful
  deriving DecidableEq, Inhabited

/-- The kind of an identity; what sets it apart from others of the kind is left blank. -/
def Identity.text {T : Type} : Identity T → String
  | .free _ => "Free(_)"
  | .pointer _ => "Pointer(_)"
  | .bound _ _ => "Bound \x7b method: _, object: _ \x7d"
  | .closure _ => "Closure(_)"

/-- A target of so many arguments under its identity. -/
structure Callable (T τ : Type) where
  target : τ
  arity : Nat
  identity : Identity T
  deriving Inhabited

namespace Callable

variable {T τ : Type}

/-! Making a callable draws on the number that the next closure gets, and leaves the one after. -/

/-- Anything that carries state of its own equals its clones only. -/
def closure (target : τ) (arity : Nat) (next : UInt64) : Callable T τ × UInt64 :=
  ({ target, arity, identity := .closure next }, next + 1)

/-- A free function, by what can be told of it. -/
def free (target : τ) (arity : Nat) (linkage : Linkage T) (next : UInt64) :
    Callable T τ × UInt64 :=
  match linkage with
  | .stateless type => ({ target, arity, identity := .free type }, next)
  | .pointer address => ({ target, arity, identity := .pointer address }, next)
  | .stateful => closure target arity next

/-- A method of some type, bound to the object at an address. -/
def bound (target : τ) (arity : Nat) (method : T) (object : Nat) : Callable T τ :=
  { target, arity, identity := .bound method object }

/-- Callables of one arity are the same call if their identities agree. -/
def same [DecidableEq T] (a b : Callable T τ) : Bool := a.arity = b.arity && a.identity = b.identity

/-- For each callable of a list, where the first one that is the same stands. -/
def groups [DecidableEq T] (callables : List (Callable T τ)) : List Nat :=
  callables.map fun c => callables.findIdx (same c)

def text (c : Callable T τ) : String := "Callable \x7b identity: " ++ c.identity.text ++ " \x7d"

end Callable
end CrossCall
