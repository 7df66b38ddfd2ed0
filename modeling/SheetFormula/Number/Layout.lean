import SheetFormula.Number.Decimal

/-!
# Writing numbers

A `Layout` holds the decisions that a number format makes; `Layout.write` writes the shortest
digits that read back in that layout. Three layouts are in use: `canonical` in formula text,
`outline` in tree outlines, `json` in JSON.
-/

namespace SheetFormula.Number

/-- The decisions of a number format. -/
structure Layout where
  /-- The exponents of the leading digit that are written without an exponent; `none` for all. -/
  positional : Option (Int × Int)
  /-- Whether a whole number without an exponent keeps the fraction `.0`. -/
  keepsFraction : Bool
  /-- Whether an exponent that is not negative is written with a plus. -/
  signsExponent : Bool
  /-- Which of two equally near digit strings is written. -/
  tie : Tie
  deriving Repr

namespace Layout

/-- Formula text: never an exponent, `1` for one. -/
def canonical : Layout := ⟨none, false, false, .up⟩

/-- Tree outlines: `1.0` for one, an exponent below `10⁻⁴` and from `10¹⁶` on. -/
def outline : Layout := ⟨some (-4, 15), true, false, .up⟩

/-- JSON: `1.0` for one, an exponent below `10⁻⁵` and from `10¹⁶` on, there as in `1e+16`. -/
def json : Layout := ⟨some (-5, 15), true, true, .toEven⟩

/-- The digits with a decimal point after the first `point` of them. -/
def placePoint (keepsFraction : Bool) (digits : List Char) (point : Int) : List Char :=
  if point ≤ 0 then '0' :: '.' :: (List.replicate (-point).toNat '0' ++ digits)
  else
    let before := point.toNat
    if digits.length ≤ before then
      digits ++ List.replicate (before - digits.length) '0' ++
        (if keepsFraction then ['.', '0'] else [])
    else digits.take before ++ '.' :: digits.drop before

/-- The digits with a point after the first one, and the exponent of that first digit. -/
def withExponent (signsExponent : Bool) (digits : List Char) (exponent : Int) : List Char :=
  digits.take 1 ++ (if 1 < digits.length then '.' :: digits.drop 1 else []) ++
    'e' :: (if signsExponent ∧ 0 ≤ exponent then ['+'] else []) ++ (toString exponent).toList

/-- The text of a magnitude. -/
def writeCode (layout : Layout) (code : Nat) : List Char :=
  if code = 0 then placePoint layout.keepsFraction ['0'] 1
  else
    let (digits, point) := (Decimal.shortest layout.tie code).digits
    match layout.positional with
    | none => placePoint layout.keepsFraction digits point
    | some (low, high) =>
      if low ≤ point - 1 ∧ point - 1 ≤ high then placePoint layout.keepsFraction digits point
      else withExponent layout.signsExponent digits (point - 1)

/-- The text of a number. -/
def write (layout : Layout) : Binary64 → String
  | .finite negative code =>
    String.ofList ((if negative then ['-'] else []) ++ layout.writeCode code.val)
  | .infinity negative => if negative then "-inf" else "inf"
  | .nan => "NaN"

end Layout

end SheetFormula.Number
