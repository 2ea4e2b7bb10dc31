import SchemaAccess.Text.Digits

/-!
# Numbers and their range

A number that is kept must have a finite value in double precision.  The value is found in steps,
and near the largest double it is the steps that decide: the leading digits that fit into 64 bits
make up a significand, the digits that do not fit only count, and the significand, rounded to a
double, is multiplied by a power of ten, rounded likewise.

* `NumberParts` — the digits of a number; `NumberParts.magnitude` reads off the significand and the
  power of ten.
* `absorb` — taking digits into a significand.
* `roundToDouble` — the nearest whole number that is a double, a half going to the even neighbour.
* `Magnitude.isInfinite` — the product is at least half a unit beyond the largest double.

`absorb_lt` says that a significand stays within its 64 bits, `roundToDouble_of_lt` that rounding
changes no number of up to 53 binary digits.
-/

namespace SchemaAccess.Json

/-! ## Digits and significands -/

/-- The parts of a number's text that decide its size; its sign does not. -/
structure NumberParts where
  /-- The digits before the fraction. -/
  integer : List Char
  /-- The digits after the point. -/
  fraction : List Char
  /-- True if the exponent is negative. -/
  smaller : Bool
  /-- The digits of the exponent. -/
  exponent : List Char

/-- A whole number times a power of ten. -/
structure Magnitude where
  significand : Nat
  scale : Int

/-- One more than the largest significand. -/
def significandBound : Nat := Nat.pow 2 64

/-- Takes digits into a significand as long as it stays within its bound.  The result holds the
significand and the digits that are left from the first one that does not fit. -/
def absorb (significand : Nat) : List Char → Nat × List Char
  | [] => (significand, [])
  | d :: ds =>
    let next := significand * 10 + Text.digitsValue [d]
    if next < significandBound then absorb next ds else (significand, d :: ds)

/-- A significand stays within its bound. -/
theorem absorb_lt {significand : Nat} (h : significand < significandBound) (digits : List Char) :
    (absorb significand digits).1 < significandBound := by
  induction digits generalizing significand with
  | nil => exact h
  | cons d ds ih =>
    simp only [absorb]
    split
    · next hnext => exact ih hnext
    · exact h

namespace NumberParts

/-- The number that the exponent's digits stand for, with its sign. -/
def exponentValue (parts : NumberParts) : Int :=
  if parts.smaller then -(Text.digitsValue parts.exponent : Int)
  else Text.digitsValue parts.exponent

/-- The significand and the power of ten of a number.  A digit before the point that does not fit
multiplies by ten, a digit after the point that fits divides by ten. -/
def magnitude (parts : NumberParts) : Magnitude :=
  let whole := absorb 0 parts.integer
  let all := absorb whole.1 parts.fraction
  { significand := all.1
    scale := parts.exponentValue + whole.2.length - (parts.fraction.length - all.2.length : Nat) }

end NumberParts

/-! ## Doubles -/

/-- The nearest whole number with at most 53 binary digits before its trailing zeros; a half goes
to the even neighbour. -/
def roundToDouble (n : Nat) : Nat :=
  let unit := Nat.pow 2 (n.log2 - 52)
  let quotient := n / unit
  let rest := n % unit
  if unit < 2 * rest ∨ (unit = 2 * rest ∧ quotient % 2 = 1) then (quotient + 1) * unit
  else quotient * unit

/-- Rounding changes no number of up to 53 binary digits. -/
theorem roundToDouble_of_lt {n : Nat} (h : n < Nat.pow 2 53) : roundToDouble n = n := by
  have hlog : n.log2 - 52 = 0 := by
    by_cases hn : n = 0
    · simp [hn]
    · have := (Nat.log2_lt (k := 53) hn).2 h
      omega
  simp [roundToDouble, hlog, Nat.mod_one]

/-- Half a unit beyond the largest double, where infinity begins. -/
def infinityThreshold : Nat := Nat.pow 2 1024 - Nat.pow 2 970

namespace Magnitude

/-- The largest exponent of a power of ten that is a finite double. -/
def maxScale : Nat := 308

/-- True of a magnitude without a finite value in double precision. -/
def isInfinite (m : Magnitude) : Bool :=
  if m.significand = 0 then false
  else
    match m.scale with
    | .negSucc _ => false
    | .ofNat scale =>
      if maxScale < scale then true
      else
        decide (infinityThreshold ≤
          roundToDouble m.significand * roundToDouble (Nat.pow 10 scale))

end Magnitude

end SchemaAccess.Json
