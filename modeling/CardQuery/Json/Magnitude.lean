import CardQuery.Text.Basic

/-!
# How great a written number is

A number can be written with any digits and any exponent, but only some numbers have a double
near them. A written number stands for its significand, the leading digits as long as they fit in
64 bits, times a power of ten. Both are rounded to doubles, and so is their product.
`numberOverflows` tells whether the product is beyond the greatest double.
-/

set_option autoImplicit false

namespace CardQuery.Json

/-! ## Rounding -/

/-- The number nearest to `n` that has at most 53 binary digits before its final zeros. Of two
that are equally near, it is the one whose last kept digit is zero. -/
def nearestDouble (n : Nat) : Nat :=
  let dropped := n.log2 - 52
  let kept := n >>> dropped
  let unit := 1 <<< dropped
  let rest := n % unit
  let up := unit < 2 * rest || (unit == 2 * rest && kept % 2 == 1)
  (if up then kept + 1 else kept) <<< dropped

/-- The exponent of the greatest power of ten that has a nearest double. -/
def maxExponent : Int :=
  308

/-- Whether a significand times a power of ten is beyond every double. -/
def exceedsDouble (significand : Nat) (exponent : Int) : Bool :=
  significand != 0 && decide (0 ≤ exponent) &&
    (decide (maxExponent < exponent) ||
      1 <<< 1024 ≤ nearestDouble
        (nearestDouble significand * nearestDouble (Nat.pow 10 exponent.toNat)))

/-! ## Written numbers -/

/-- The value of a decimal digit. -/
def digitValue (c : Char) : Nat :=
  c.toNat - '0'.toNat

/-- The number that decimal digits write. -/
def digitsValue (digits : Text) : Nat :=
  digits.foldl (fun n c => n * 10 + digitValue c) 0

/-- The greatest number that fits in 64 bits. -/
def maxSignificand : Nat :=
  18446744073709551615

/-- A significand with as many further digits as fit, and how many these are. -/
def extendSignificand (significand : Nat) : Text → Nat × Nat
  | [] => (significand, 0)
  | c :: cs =>
    let longer := significand * 10 + digitValue c
    if longer ≤ maxSignificand then
      let (full, taken) := extendSignificand longer cs
      (full, taken + 1)
    else (significand, 0)

/-- Whether the number with these digits before and after the point and this exponent is beyond
every double. -/
def numberOverflows (whole fraction : Text) (exponent : Int) : Bool :=
  let (significand, taken) := extendSignificand 0 whole
  let (significand, takenAfter) := extendSignificand significand fraction
  -- A digit of the whole part that was left out counts as a zero, one of the fraction as nothing.
  exceedsDouble significand (exponent + (whole.length - taken : Nat) - takenAfter)

end CardQuery.Json
