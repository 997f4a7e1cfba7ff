/-!
Integers of 64 bits: which integers they are.
-/

namespace CrossCall

/-- 64 bits with a sign hold the integer. -/
abbrev FitsSigned (n : Int) : Prop :=
  -9_223_372_036_854_775_808 ≤ n ∧ n < 9_223_372_036_854_775_808

/-- 64 bits without a sign hold the integer. -/
abbrev FitsUnsigned (n : Int) : Prop := 0 ≤ n ∧ n < 18_446_744_073_709_551_616

end CrossCall
