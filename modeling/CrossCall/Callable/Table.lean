import CrossCall.Callable

/-!
Callables as keys of a hash table. A hasher is fed with the kind of the identity and with what sets
it apart from others of its kind. A key lies in the bucket that its hash points at; keys of one
bucket are told apart by comparing them.
-/

namespace CrossCall

inductive HashPiece (T : Type) where
  | kind (index : Nat)
  | type (type : T)
  | address (address : Nat)
  | number (number : UInt64)

structure Hasher (T : Type) where
  State : Type
  start : State
  feed : State → HashPiece T → State
  finish : State → UInt64

namespace Identity

variable {T : Type}

inductive Kind where
  | free
  | pointer
  | bound
  | closure
  deriving DecidableEq

def kind : Identity T → Kind
  | .free _ => .free
  | .pointer _ => .pointer
  | .bound _ _ => .bound
  | .closure _ => .closure

/-- What of an identity goes into its hash. -/
def pieces (i : Identity T) : List (HashPiece T) :=
  .kind i.kind.ctorIdx ::
    match i with
    | .free type => [.type type]
    | .pointer address => [.address address]
    | .bound method object => [.type method, .address object]
    | .closure number => [.number number]

end Identity

namespace Callable

variable {T τ : Type}

def hash (h : Hasher T) (c : Callable T τ) : UInt64 :=
  h.finish (c.identity.pieces.foldl h.feed h.start)

/-- A table that keeps a number for each of its keys. -/
structure Table (T τ : Type) where
  hasher : Hasher T
  buckets : Array (List (Callable T τ × Nat))

namespace Table

def empty (hasher : Hasher T) (size : Nat) : Table T τ := ⟨hasher, .replicate size []⟩

def slot (t : Table T τ) (c : Callable T τ) : Nat := (c.hash t.hasher).toNat % t.buckets.size

def get? [DecidableEq T] (t : Table T τ) (c : Callable T τ) : Option Nat := do
  let bucket ← t.buckets[t.slot c]?
  let entry ← bucket.find? (·.1.same c)
  return entry.2

def insert (t : Table T τ) (c : Callable T τ) (n : Nat) : Table T τ :=
  { t with buckets := t.buckets.modify (t.slot c) (· ++ [(c, n)]) }

/-- Goes through a list from place `n` on. A callable that is a key already gets the number of that
key, any other one becomes a key under its own place. -/
def groupsFrom [DecidableEq T] (t : Table T τ) (n : Nat) : List (Callable T τ) → List Nat
  | [] => []
  | c :: rest =>
    match t.get? c with
    | some k => k :: t.groupsFrom (n + 1) rest
    | none => n :: (t.insert c n).groupsFrom (n + 1) rest

end Table
end Callable
end CrossCall
