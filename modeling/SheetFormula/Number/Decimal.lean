import SheetFormula.Number.Binary64

/-!
# Decimals

A decimal is a whole coefficient times a power of ten.

1. `Decimal.toBinary64` is the binary64 number nearest to a decimal, by one exact division.
2. `Decimal.shortest` is the decimal with the fewest digits that reads back as a given number and,
   among those, the nearest one. It always reads back: where no grid of at most seventeen digits
   has a hit, it is the exact value.
-/

namespace SheetFormula.Number

/-- A power of ten. -/
def tenTo (n : Nat) : Nat := Nat.pow 10 n

/-- The value `coefficient · 10 ^ exponent`. -/
structure Decimal where
  coefficient : Nat
  exponent : Int
  deriving DecidableEq, Repr

/-- Which way an exact tie between two equally short decimals goes. -/
inductive Tie where
  | up
  | toEven
  deriving DecidableEq, Repr

namespace Decimal

/-- The code of the binary64 magnitude nearest to a decimal. The first two exits avoid powers of
ten that are out of range anyway: `10 ^ 310` overflows, and `10 ^ -330` is below half a unit. -/
def nearestCode (d : Decimal) : Nat :=
  if d.coefficient = 0 then 0
  else if 310 ≤ d.exponent then overflowCode
  else if d.exponent + d.coefficient.log2 < -330 then 0
  else
    Number.nearestCode (d.coefficient * tenTo d.exponent.toNat * unitsPerOne)
      (tenTo (-d.exponent).toNat)

/-- The binary64 number nearest to a decimal with this sign. -/
def toBinary64 (negative : Bool) (d : Decimal) : Binary64 :=
  Binary64.ofCode negative d.nearestCode

/-- The exact value of a code. -/
def exact (code : Nat) : Decimal := ⟨units code * Nat.pow 5 1074, -1074⟩

/-- Numerator and denominator of `magnitude / 10 ^ exponent`, the magnitude in least units. -/
def onGrid (magnitude : Nat) (exponent : Int) : Nat × Nat :=
  (magnitude * tenTo (-exponent).toNat, unitsPerOne * tenTo exponent.toNat)

/-- How many digits the magnitude has before its decimal point; not positive when it starts after
the point. The binary length gives it up to one, and one comparison decides. -/
def pointOf (magnitude : Nat) : Int :=
  let low := (((magnitude.log2 : Int) - 1074) * 30103) / 100000 + 1
  let (num, den) := onGrid magnitude low
  if num < den then low else low + 1

/-- The two neighbours of a magnitude on the grid of multiples of `10 ^ exponent`, the nearer one
first. -/
def neighbours (tie : Tie) (magnitude : Nat) (exponent : Int) : List Decimal :=
  let (num, den) := onGrid magnitude exponent
  let below := num / den
  let twice := 2 * (num % den)
  let upFirst :=
    if twice = den then tie == .up || below % 2 == 1 else decide (den < twice)
  if upFirst then [⟨below + 1, exponent⟩, ⟨below, exponent⟩]
  else [⟨below, exponent⟩, ⟨below + 1, exponent⟩]

/-- The shortest decimal that reads back as the code, nearest to its value. -/
def shortest (tie : Tie) (code : Nat) : Decimal :=
  let magnitude := units code
  let point := pointOf magnitude
  let ofLength (n : Nat) : Option Decimal :=
    (neighbours tie magnitude (point - n)).find? fun d => d.nearestCode == code
  ((List.range' 1 17).findSome? ofLength).getD (exact code)

/-- The digits of a decimal without trailing zeros, and how many of them stand before the point. -/
def digits (d : Decimal) : List Char × Int :=
  let written := Nat.toDigits 10 d.coefficient
  ((written.reverse.dropWhile (· == '0')).reverse, d.exponent + written.length)

end Decimal

end SheetFormula.Number
