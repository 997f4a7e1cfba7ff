import CrossCall.Binary

/-!
Decimal numbers as they are written, and the binary number that one is read as. The digits and the
power of ten are rounded each by itself, and so is their product or quotient; what is read may
therefore be a neighbour of the number nearest to the decimal.
-/

namespace CrossCall

/-- The number digits · 10^exponent. -/
structure Decimal where
  digits : Nat
  exponent : Int
  deriving DecidableEq, Repr

namespace Decimal

/-- The number nearest to 10^n; it is in range up to n = 308. -/
def powerOfTen (n : Nat) : Binary := .nearest (Nat.pow 10 n) 1

/-- The quotient by 10^n. Where 10^n is out of range it takes several steps, and each of them is
rounded. -/
def dividedByPower (b : Binary) (n : Nat) : Binary :=
  if b.isZero then b
  else if n ≤ 308 then b.div (powerOfTen n)
  else dividedByPower (b.div (powerOfTen 308)) (n - 308)
termination_by n

/-- What the decimal is read as; nothing if that is out of range. -/
def toBinary? (d : Decimal) : Option Binary :=
  let b := Binary.nearest d.digits 1
  if b.isZero then some b
  else if d.exponent < 0 then some (dividedByPower b (-d.exponent).toNat)
  else if d.exponent ≤ 308 then
    let product := b.mul (powerOfTen d.exponent.toNat)
    if product.isInRange then some product else none
  else none

end Decimal
end CrossCall
