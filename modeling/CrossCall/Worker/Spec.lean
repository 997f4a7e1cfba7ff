import CrossCall.LoadError
import CrossCall.Payload

/-!
What is fixed about a worker before it starts: its name and, if asked for, the size of its stack.
A specification is built in steps, or loaded from fields in any order, or from an array by
position.
-/

namespace CrossCall

structure WorkerSpec where
  name : String := "tether-worker"
  stackSize : Option UInt64 := none
  deriving DecidableEq, Inhabited

namespace WorkerSpec

def default : WorkerSpec := {}

def named (name : String) : WorkerSpec := { name }

/-- Asks for a stack of so many bytes; a stack of none is a mistake of the caller. -/
def withStack (spec : WorkerSpec) (bytes : UInt64) : Except Payload WorkerSpec :=
  if 0 < bytes then .ok { spec with stackSize := some bytes }
  else .error (.literal "worker stack size must be > 0")

def loadName (v : Value) : Except LoadError String :=
  match v with
  | .text s => .ok s
  | _ => .error (.wrongKind v "a string")

def loadStackSize (v : Value) : Except LoadError (Option UInt64) :=
  match v with
  | .null => .ok none
  | .int n =>
    if FitsUnsigned n then .ok (some (UInt64.ofNat n.toNat)) else .error (.outOfRange v "usize")
  | _ => .error (.wrongKind v "usize")

/-- The fields read so far. -/
structure Draft where
  name : Option String := none
  stackSize : Option (Option UInt64) := none

def Draft.complete (p : Draft) : WorkerSpec where
  name := p.name.getD default.name
  stackSize := p.stackSize.getD default.stackSize

/-- Reads one field; a repeated field is a fault before its value is looked at. -/
def Draft.read (p : Draft) (key : String) (v : Value) : Except LoadError Draft :=
  if key = "name" then
    if p.name.isSome then .error (.duplicateField "name")
    else do return { p with name := some (← loadName v) }
  else if key = "stack_size" then
    if p.stackSize.isSome then .error (.duplicateField "stack_size")
    else do return { p with stackSize := some (← loadStackSize v) }
  else .error (.unknownField key ["name", "stack_size"])

def Draft.readAll (p : Draft) : List (String × Value) → Except LoadError Draft
  | [] => .ok p
  | (key, v) :: rest => do (← p.read key v).readAll rest

/-- Fields that are missing take their default; the first faulty field is reported. -/
def loadFields (fields : List (String × Value)) : Except LoadError WorkerSpec := do
  return (← Draft.readAll {} fields).complete

/-- By position: the name, then the stack size. -/
def loadItems : List Value → Except LoadError WorkerSpec
  | [] => .ok default
  | [name] => do return { name := ← loadName name }
  | name :: stack :: rest => do
    let name ← loadName name
    let stackSize ← loadStackSize stack
    if rest.isEmpty then .ok { name, stackSize } else .error (.tooLong (rest.length + 2))

def load (v : Value) : Except LoadError WorkerSpec :=
  match v with
  | .record fields => loadFields fields
  | .list items => loadItems items
  | _ => .error (.wrongKind v "struct WorkerSpec")

/-- The fields of a specification, in their order. -/
def saveFields (spec : WorkerSpec) : List (String × Value) :=
  [("name", .text spec.name),
    ("stack_size", spec.stackSize.elim .null fun n => .int n.toNat)]

def save (spec : WorkerSpec) : Value := .ofFields spec.saveFields

end WorkerSpec
end CrossCall
