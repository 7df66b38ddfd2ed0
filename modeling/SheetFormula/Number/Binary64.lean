/-!
# Binary64 numbers

The 64-bit floating-point numbers as exact data, so that every result is computed in whole
numbers and rounded once.

1. A finite number is a sign and a magnitude *code*: the exponent field followed by the fraction
   field, read as one natural number. Codes are ordered as the magnitudes that they stand for.
2. `units` is the magnitude of a code as a whole number of least units, `2⁻¹⁰⁷⁴`.
3. `nearestCode` rounds a quotient of least units to the nearest code, a half to the even code.
   Reading a decimal and multiplying both end in it.
-/

namespace SheetFormula.Number

/-- A power of two. -/
def twoTo (n : Nat) : Nat := Nat.pow 2 n

/-- The least code that is too large for a finite number. -/
def overflowCode : Nat := 2047 * twoTo 52

/-- A binary64 number; zero carries a sign. -/
inductive Binary64 where
  | finite (negative : Bool) (code : Fin overflowCode)
  | infinity (negative : Bool)
  | nan
  deriving DecidableEq, Repr

/-- The magnitude of a code in least units: the significand, shifted by the exponent field less
one. The two lowest exponent fields share their spacing. -/
def units (code : Nat) : Nat :=
  let shift := code / twoTo 52 - 1
  (code - shift * twoTo 52) * twoTo shift

/-- The number of least units in one. -/
def unitsPerOne : Nat := twoTo 1074

/-- The whole number nearest to a quotient; a half goes to the even neighbour. -/
def roundHalfEven (num den : Nat) : Nat :=
  let quotient := num / den
  let twice := 2 * (num % den)
  if twice < den then quotient
  else if den < twice then quotient + 1
  else quotient + quotient % 2

/-- The code nearest to `num / den` least units. A significand that rounds up to the next power of
two carries into the exponent field by itself. -/
def nearestCode (num den : Nat) : Nat :=
  let shift := (num / den).log2 - 52
  shift * twoTo 52 + roundHalfEven num (den * twoTo shift)

namespace Binary64

/-- The number with this sign and code; a code past the last finite one is infinite. -/
def ofCode (negative : Bool) (code : Nat) : Binary64 :=
  if h : code < overflowCode then .finite negative ⟨code, h⟩ else .infinity negative

/-- Whether this is a finite number. -/
def isFinite : Binary64 → Bool
  | .finite _ _ => true
  | _ => false

/-- Equality as numbers: the two zeros are equal, and `nan` equals nothing. -/
def equals : Binary64 → Binary64 → Bool
  | .finite s a, .finite t b => a == b && (s == t || a.val == 0)
  | .infinity s, .infinity t => s == t
  | _, _ => false

/-- The product, rounded once from its exact value. -/
def mul : Binary64 → Binary64 → Binary64
  | .finite s a, .finite t b => ofCode (s != t) (nearestCode (units a * units b) unitsPerOne)
  | .infinity s, .finite t b => if b.val == 0 then .nan else .infinity (s != t)
  | .finite s a, .infinity t => if a.val == 0 then .nan else .infinity (s != t)
  | .infinity s, .infinity t => .infinity (s != t)
  | _, _ => .nan

/-- The number nearest to one hundredth. -/
def hundredth : Binary64 := ofCode false 0x3F847AE147AE147B

/-- A number literal taken as a percentage. -/
def percent (value : Binary64) : Binary64 := value.mul hundredth

/-- The number with this 64-bit encoding: sign, exponent field, fraction field. -/
def ofBits (bits : Nat) : Binary64 :=
  let negative := bits / twoTo 63 % 2 == 1
  let code := bits % twoTo 63
  if code ≤ overflowCode then ofCode negative code else .nan

/-- The 64-bit encoding; `nan` has the quiet one without a payload. -/
def toBits : Binary64 → Nat
  | .finite negative code => (if negative then twoTo 63 else 0) + code.val
  | .infinity negative => (if negative then twoTo 63 else 0) + overflowCode
  | .nan => overflowCode + twoTo 51

end Binary64

end SheetFormula.Number
