import SheetFormula.Expr.Parser
import SheetFormula.Token.Normalize
import SheetFormula.Token.Scan

/-!
# Formulas

From the text of a formula to its tokens and to its expression.

1. `Formula.tokens` always answers; `Formula.checkedTokens` refuses a text that ends inside a token
   or whose brackets do not match, and names the first such fault.
2. `Formula.parse` is the expression that a formula writes, read as its `Options` say.
-/

namespace SheetFormula.Formula

/-- The tokens of a formula. -/
def tokens (locale : Locale) (formula : String) : List Token :=
  Token.normalize locale (Scan.ofFormula locale formula).tokens.toList

/-- The tokens of a formula without a fault, or else its first fault. -/
def checkedTokens (locale : Locale) (formula : String) : Except LexError (List Token) :=
  let scan := Scan.ofFormula locale formula
  match scan.fault with
  | some fault => .error fault
  | none => .ok (Token.normalize locale scan.tokens.toList)

/-- How a formula is to be read. -/
structure Options where
  locale : Locale
  limits : Parser.Limits
  /-- Whether a formula with a fault in its characters is refused. -/
  strict : Bool
  deriving DecidableEq, Repr

/-- The options of a reader who names none. -/
def Options.standard : Options := ⟨.enUS, .standard, false⟩

/-- The tokens that these options ask for. -/
def Options.tokens (options : Options) (formula : String) : Except FormulaError (List Token) :=
  if options.strict then (checkedTokens options.locale formula).mapError .lex
  else .ok (Formula.tokens options.locale formula)

/-- The expression that a formula writes. -/
def parse (options : Options) (formula : String) : Except FormulaError Expr := do
  let tokens ← options.tokens formula
  (Parser.parse options.limits tokens).mapError .grammar

/-- Without a fault a formula is read alike, strictly or not. -/
theorem parse_of_faultless {locale : Locale} {limits : Parser.Limits} {formula : String}
    (strict : Bool) (h : (Scan.ofFormula locale formula).fault = none) :
    parse ⟨locale, limits, strict⟩ formula =
      (Parser.parse limits (tokens locale formula)).mapError .grammar := by
  cases strict with
  | false => rfl
  | true =>
    rw [parse, Options.tokens, if_pos rfl, checkedTokens]
    simp only [h]
    rfl

/-- What is read where the scan is known and has no fault. -/
theorem parse_of_scan {locale : Locale} {limits : Parser.Limits} {formula : String} {s : Scan.State}
    (strict : Bool) (h : Scan.ofFormula locale formula = s) (hfault : s.fault = none) :
    parse ⟨locale, limits, strict⟩ formula =
      (Parser.parse limits (Token.normalize locale s.tokens.toList)).mapError .grammar := by
  subst h
  exact parse_of_faultless strict hfault

end SheetFormula.Formula
