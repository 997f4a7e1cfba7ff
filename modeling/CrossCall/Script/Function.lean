import CrossCall.Payload
import CrossCall.Value

/-!
The functions and methods that scripts can name. A function reads its integers from the left and
only when it needs them; an argument that is no 64-bit integer and a result beyond 64 bits are
panics.
-/

namespace CrossCall.Script

inductive FunctionName where
  | answer | unit | boom0
  | square | cube | echo | boomStr | boomString | boomAny | halve
  | add | sub | pair
  | mul3 | pick3
  | sum4
  | join5 | poly5
  deriving DecidableEq, Inhabited

inductive MethodName where
  | balance | deposit | credit2 | credit3 | credit4 | credit5 | withdraw
  deriving DecidableEq, Inhabited

namespace FunctionName

def name : FunctionName → String
  | answer => "answer"
  | unit => "unit"
  | boom0 => "boom0"
  | square => "square"
  | cube => "cube"
  | echo => "echo"
  | boomStr => "boom_str"
  | boomString => "boom_string"
  | boomAny => "boom_any"
  | halve => "halve"
  | add => "add"
  | sub => "sub"
  | pair => "pair"
  | mul3 => "mul3"
  | pick3 => "pick3"
  | sum4 => "sum4"
  | join5 => "join5"
  | poly5 => "poly5"

def all : List FunctionName :=
  [answer, unit, boom0, square, cube, echo, boomStr, boomString, boomAny, halve, add, sub, pair,
    mul3, pick3, sum4, join5, poly5]

def ofName? (name : String) : Option FunctionName := all.find? (·.name = name)

def arity : FunctionName → Nat
  | answer | unit | boom0 => 0
  | square | cube | echo | boomStr | boomString | boomAny | halve => 1
  | add | sub | pair => 2
  | mul3 | pick3 => 3
  | sum4 => 4
  | join5 | poly5 => 5

/-- The address a pointer to the function holds; no two functions share one. -/
def address : FunctionName → Nat := FunctionName.ctorIdx

end FunctionName

/-- The integer an argument holds. -/
def int (v : Value) : Except Payload Int :=
  match v.int64? with
  | some n => .ok n
  | none => .error (.made s!"not an integer: {v.compact}")

/-- A result that has to fit 64 bits. -/
def fit (name : String) (n : Int) : Except Payload Int :=
  if FitsSigned n then .ok n else .error (.made s!"{name} overflow")

/-- What a panic shows of a value: a text as it is, anything else in compact form. -/
def shown : Value → String
  | .text s => s
  | v => v.compact

/-- Adds the arguments to `s`, each read when its turn comes. -/
def addAll (name : String) (s : Int) : List Value → Except Payload Int
  | [] => .ok s
  | v :: rest => do addAll name (← fit name (s + (← int v))) rest

/-- Evaluates a polynomial at `x`, the coefficient of the highest power first. -/
def horner (name : String) (x s : Int) : List Value → Except Payload Int
  | [] => .ok s
  | v :: rest => do
    let product ← fit name (s * x)
    horner name x (← fit name (product + (← int v))) rest

def FunctionName.eval : FunctionName → List Value → Except Payload Value
  | answer, [] => .ok (.int 42)
  | unit, [] => .ok (.text "unit")
  | boom0, [] => .error (.literal "boom")
  | square, [x] => do
    let x ← int x
    return .int (← fit "square" (x * x))
  | cube, [x] => do
    let x ← int x
    return .int (← fit "cube" ((← fit "cube" (x * x)) * x))
  | echo, [v] => .ok v
  | boomStr, [_] => .error (.literal "boom-str")
  | boomString, [v] => .error (.made s!"boom: {shown v}")
  | boomAny, [_] => .error (.foreign "integer")
  | halve, [n] => do
    let n ← int n
    if n % 2 = 0 then return .int (n.tdiv 2) else throw (.made s!"odd: {n}")
  | add, [a, b] => do
    let a ← int a
    let b ← int b
    return .int (← fit "add" (a + b))
  | sub, [a, b] => do
    let a ← int a
    let b ← int b
    return .int (← fit "sub" (a - b))
  | pair, [a, b] => .ok (.list [a, b])
  | mul3, [a, b, c] => do
    let a ← int a
    let b ← int b
    let ab ← fit "mul3" (a * b)
    return .int (← fit "mul3" (ab * (← int c)))
  | pick3, [.bool true, y, _] => .ok y
  | pick3, [_, _, n] => .ok n
  | sum4, [a, b, c, d] => do return .int (← addAll "sum4" 0 [a, b, c, d])
  | join5, [a, b, c, d, e] =>
    .ok (.text ("-".intercalate ([a, b, c, d, e].map Value.compact)))
  | poly5, [x, a, b, c, d] => do
    let x ← int x
    return .int (← horner "poly5" x 0 [a, b, c, d])
  | f, _ => .error (.made s!"{f.name} takes {f.arity} arguments")

namespace MethodName

def name : MethodName → String
  | balance => "balance"
  | deposit => "deposit"
  | credit2 => "credit2"
  | credit3 => "credit3"
  | credit4 => "credit4"
  | credit5 => "credit5"
  | withdraw => "withdraw"

def all : List MethodName := [balance, deposit, credit2, credit3, credit4, credit5, withdraw]

def ofName? (name : String) : Option MethodName := all.find? (·.name = name)

def arity : MethodName → Nat
  | balance => 0
  | deposit | withdraw => 1
  | credit2 => 2
  | credit3 => 3
  | credit4 => 4
  | credit5 => 5

/-- The balance after a call of the method with arguments that are integers; credits wrap around. -/
def apply (m : MethodName) (funds : Int64) (args : List Int) : Except Payload Int64 :=
  match m with
  | balance => .ok funds
  | withdraw =>
    let x := args.foldl (· + ·) 0
    if funds.toInt < x then .error (.made s!"insufficient funds: {funds.toInt} < {x}")
    else .ok (funds - Int64.ofInt x)
  | _ => .ok (args.foldl (fun b x => b + Int64.ofInt x) funds)

end MethodName
end CrossCall.Script
