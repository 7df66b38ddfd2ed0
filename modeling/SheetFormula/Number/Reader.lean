import SheetFormula.Number.Decimal

/-!
# Reading numbers

`Binary64.ofText?` reads decimal text: an optional sign, then either `inf`, `infinity` or `nan` in
any case of the letters, or digits with an optional point and an optional exponent. A digit must
stand before or after the point. Digits are ASCII.
-/

namespace SheetFormula.Number

namespace Decimal

/-- Reads the digits of an exponent, with an optional sign. -/
def readExponent : List Char → Option Int
  | '+' :: digits => unsigned digits
  | '-' :: digits => (unsigned digits).map fun e => -e
  | digits => unsigned digits
where
  /-- Reads one or more digits and nothing else. -/
  unsigned (digits : List Char) : Option Int :=
    if digits.isEmpty || !digits.all Char.isDigit then none else some (Nat.ofDigitChars 10 digits 0)

/-- Reads what follows the digits of a decimal: nothing, or `e` and an exponent. -/
def readScale : List Char → Option Int
  | [] => some 0
  | c :: rest => if c = 'e' ∨ c = 'E' then readExponent rest else none

/-- Splits a run of digits off the front of a text. -/
def spanDigits (text : List Char) : List Char × List Char :=
  (text.takeWhile Char.isDigit, text.dropWhile Char.isDigit)

/-- The fraction digits after a point, and what follows them; none where no point stands. -/
def readFraction : List Char → List Char × List Char
  | '.' :: rest => spanDigits rest
  | rest => ([], rest)

/-- Reads an unsigned decimal. -/
def read? (text : List Char) : Option Decimal :=
  let (whole, rest) := spanDigits text
  let (fraction, rest) := readFraction rest
  if whole.isEmpty && fraction.isEmpty then none
  else (readScale rest).map fun scale =>
    ⟨Nat.ofDigitChars 10 (whole ++ fraction) 0, scale - fraction.length⟩

end Decimal

namespace Binary64

/-- Reads an unsigned number and gives it this sign. -/
def readUnsigned? (negative : Bool) (text : List Char) : Option Binary64 :=
  let word := text.map Char.toLower
  if word = ['i', 'n', 'f'] ∨ word = "infinity".toList then some (.infinity negative)
  else if word = ['n', 'a', 'n'] then some .nan
  else (Decimal.read? text).map (Decimal.toBinary64 negative)

/-- Reads a number. -/
def ofText? (text : String) : Option Binary64 :=
  match text.toList with
  | '+' :: rest => readUnsigned? false rest
  | '-' :: rest => readUnsigned? true rest
  | rest => readUnsigned? false rest

end Binary64

end SheetFormula.Number
