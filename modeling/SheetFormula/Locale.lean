import SheetFormula.Text.Blank
import SheetFormula.Text.DecimalDigit
import SheetFormula.Number.Reader

/-!
# Locales

The spellings that differ between spreadsheet locales, and how a locale reads a literal.

1. A locale fixes the two logical literals, the argument separator and the decimal separator.
2. `readNumber?` reads an unsigned number literal of the locale; the value must be finite.
   `canonical` writes it with a point, whatever the locale.
3. `awaitsExponent` holds of a mantissa followed by the exponent mark, after which a sign still
   belongs to the number.
-/

namespace SheetFormula

/-- The locales. -/
inductive Locale where
  | enUS
  | deDE
  deriving DecidableEq, Repr, Inhabited

/-- A text that names no locale. -/
structure Locale.Unrecognised where
  text : String
  deriving DecidableEq, Repr

/-- The wording of the error. -/
def Locale.Unrecognised.message (error : Locale.Unrecognised) : String :=
  "unknown locale '" ++ error.text ++ "' (expected en-US or de-DE)"

namespace Locale

/-- The language tag. -/
def tag : Locale → String
  | .enUS => "en-US"
  | .deDE => "de-DE"

/-- The literal for a logical value. -/
def logicalLiteral : Locale → Bool → String
  | .enUS, true => "TRUE"
  | .enUS, false => "FALSE"
  | .deDE, true => "WAHR"
  | .deDE, false => "FALSCH"

/-- What separates the arguments of a call. -/
def argumentSeparator : Locale → Char
  | .enUS => ','
  | .deDE => ';'

/-- What separates the whole part of a number from its fraction. -/
def decimalSeparator : Locale → Char
  | .enUS => '.'
  | .deDE => ','

/-- Reads the name of a locale: its tag or its language alone, in any case of the letters, with
`_` for `-`, and with white space around it. -/
def read (text : String) : Except Unrecognised Locale :=
  let spelling := (Text.trim text.toList).map fun c => if c = '_' then '-' else c.toLower
  if spelling = "en-us".toList ∨ spelling = "en".toList then .ok .enUS
  else if spelling = "de-de".toList ∨ spelling = "de".toList then .ok .deDE
  else .error ⟨text⟩

/-- The conventions of a locale on one line. -/
def listing (locale : Locale) : String :=
  let name := match locale with
    | .enUS => "EnUs"
    | .deDE => "DeDe"
  let fields := [
    "locale: " ++ name,
    "true_literal: \"" ++ locale.logicalLiteral true ++ "\"",
    "false_literal: \"" ++ locale.logicalLiteral false ++ "\"",
    "argument_separator: " ++ String.ofList ['\'', locale.argumentSeparator, '\''],
    "decimal_separator: " ++ String.ofList ['\'', locale.decimalSeparator, '\'']]
  "LanguageTable \x7b " ++ String.intercalate ", " fields ++ " \x7d"

/-! ## Literals -/

/-- A number with its decimal separators replaced by points. -/
def canonical (locale : Locale) (text : String) : String :=
  String.ofList (text.toList.map fun c => if c = locale.decimalSeparator then '.' else c)

/-- Reads a number literal. Only the decimal separator of the locale counts as one, and a value
too large for a finite number is none. -/
def readNumber? (locale : Locale) (text : String) : Option Number.Binary64 :=
  if locale.decimalSeparator ≠ '.' ∧ '.' ∈ text.toList then none
  else
    ((Number.Decimal.read? (locale.canonical text).toList).map
      (Number.Decimal.toBinary64 false)).filter Number.Binary64.isFinite

/-- Reads a logical literal in any case of its letters. -/
def readLogical? (locale : Locale) (text : String) : Option Bool :=
  let spelling := text.toList.map Char.toUpper
  if spelling = (locale.logicalLiteral true).toList then some true
  else if spelling = (locale.logicalLiteral false).toList then some false
  else none

/-- Whether a text is the exponent mark alone. -/
def isExponentMark (text : List Char) : Bool :=
  text == ['E'] || text == ['e']

/-- Whether a text is a mantissa followed by the exponent mark, its digits those of any script. -/
def awaitsExponent (locale : Locale) (text : String) : Bool :=
  let whole := text.toList.takeWhile Text.isDecimalDigit
  let rest := text.toList.dropWhile Text.isDecimalDigit
  !whole.isEmpty &&
    match rest with
    | c :: fraction =>
      isExponentMark rest ||
        c == locale.decimalSeparator && isExponentMark (fraction.dropWhile Text.isDecimalDigit)
    | [] => false

end Locale

end SheetFormula
