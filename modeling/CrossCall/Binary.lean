/-!
Binary numbers of double precision: rounding to them, products and quotients rounded again, and the
text of one, which has the fewest digits that still read back as the same number. A text stands by
position where its first digit counts at least 10^-5 and at most 10^15, and otherwise has an
exponent with a sign.
-/

namespace CrossCall

/-- The number m · 2^q; of double precision if m has at most 53 bits and q is at least -1074. -/
structure Binary where
  m : Nat
  q : Int
  deriving DecidableEq, Repr, Inhabited

namespace Binary

/-! ### Rounding -/

/-- The quotient rounded to the nearest integer, a tie to the even one. -/
def roundQuotient (num den : Nat) : Nat :=
  let n := num / den
  let twice := 2 * (num % den)
  if twice < den then n else if den < twice then n + 1 else n + n % 2

/-- The quotient `num / den` scaled down by 2^q, again as a quotient of integers. -/
def scaled (num den : Nat) (q : Int) : Nat × Nat :=
  if q < 0 then (num <<< (-q).toNat, den) else (num, den <<< q.toNat)

/-- The number of double precision nearest to a quotient, with as large an m as fits. The range has
no upper end here. -/
def nearest (num den : Nat) : Binary :=
  let guess : Int := max ((num.log2 : Int) - den.log2 - 53) (-1074)
  let (n, d) := scaled num den guess
  let q := if n / d < 9_007_199_254_740_992 then guess else guess + 1
  let (n, d) := scaled num den q
  let m := roundQuotient n d
  -- Rounding up may have given it a bit too many.
  if m = 9_007_199_254_740_992 then ⟨4_503_599_627_370_496, q + 1⟩ else ⟨m, q⟩

def isZero (b : Binary) : Bool := b.m = 0

/-- A rounded number of double precision lies below 2^1024. -/
def isInRange (b : Binary) : Bool := b.isZero || b.q ≤ 971

def mul (a b : Binary) : Binary :=
  let (n, d) := scaled (a.m * b.m) 1 (-(a.q + b.q))
  nearest n d

def div (a b : Binary) : Binary :=
  let (n, d) := scaled a.m b.m (b.q - a.q)
  nearest n d

/-! ### The fewest digits -/

/-- Whatever lies inside this interval reads back as the number; the ends are given in units of
2^(q-2), and belong to the interval when m is even. -/
def interval (b : Binary) : Nat × Nat :=
  (4 * b.m - (if b.m = 4_503_599_627_370_496 ∧ -1074 < b.q then 1 else 2), 4 * b.m + 2)

/-- The multiple of 10^t nearest to the number among the two around it that read back. -/
def onGrid (b : Binary) (t : Int) : Option Nat :=
  let (low, high) := b.interval
  let unit := fun n : Nat =>
    let (n, d) := scaled n 1 (2 - b.q)
    if t < 0 then (n * Nat.pow 10 (-t).toNat, d) else (n, d * Nat.pow 10 t.toNat)
  let inside := fun a : Nat =>
    let (l, d) := unit low
    let (h, _) := unit high
    0 < a && (if b.m % 2 = 0 then l ≤ a * d && a * d ≤ h else l < a * d && a * d < h)
  let (n, d) := unit (4 * b.m)
  let below := n / d
  match inside below, inside (below + 1) with
  | true, true => some (roundQuotient n d)
  | true, false => some below
  | false, true => some (below + 1)
  | false, false => none

/-- The digits and the exponent of the coarsest decimal grid on which the number reads back. -/
def shortest (b : Binary) : Nat × Int :=
  ((List.range 650).findSome? fun i : Nat =>
    let t : Int := 309 - (i : Int)
    (b.onGrid t).map (·, t)).getD (0, 0)

/-! ### Text -/

/-- Digits written by position, with at least one decimal. -/
def positional (digits : Nat) (exponent : Int) : String :=
  if 0 ≤ exponent then toString (digits * Nat.pow 10 exponent.toNat) ++ ".0"
  else
    let places := (-exponent).toNat
    let fraction := toString (digits % Nat.pow 10 places)
    toString (digits / Nat.pow 10 places) ++ "." ++
      String.ofList (List.replicate (places - fraction.length) '0') ++ fraction

/-- Digits with a point after the first, if there are more, and the exponent of that first digit. -/
def scientific (digits : List Char) (exponent : Int) : String :=
  let mantissa := match digits with
    | first :: second :: rest => first :: '.' :: second :: rest
    | _ => digits
  String.ofList mantissa ++ (if exponent < 0 then "e-" else "e+") ++ toString exponent.natAbs

def text (b : Binary) : String :=
  if b.isZero then "0.0"
  else
    let (digits, t) := b.shortest
    let written := Nat.toDigits 10 digits
    let exponent : Int := t + written.length - 1
    if -5 ≤ exponent ∧ exponent ≤ 15 then positional digits t else scientific written exponent

end Binary
end CrossCall
