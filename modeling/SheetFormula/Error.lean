/-!
# Errors

Why a formula is refused, one constructor for each cause.

1. A `LexError` is found while a formula is cut into tokens; it is an error only when strict
   scanning is asked for.
2. A `SyntaxError` is found while tokens are built into a tree. Its causes from `stalled` on are
   broken promises of the parser itself; a user reads them as `invalid`.
3. `kind` and `message` are what a user sees.
-/

namespace SheetFormula

/-- A fault in the characters of a formula; offsets are in bytes. -/
inductive LexError where
  /-- A `;` with no array around it. -/
  | rowOutsideArray (offset : Nat)
  /-- A `}` with no array to close. -/
  | noArrayToClose (offset : Nat)
  /-- A `)` with nothing to close. -/
  | noOpener (offset : Nat)
  /-- The formula ends inside a text. -/
  | unfinishedText
  /-- The formula ends inside a quoted sheet path. -/
  | unfinishedPath
  /-- The formula ends inside `[…]`. -/
  | unfinishedBracket
  /-- The formula ends inside an error literal. -/
  | unfinishedErrorLiteral (text : String)
  /-- The formula ends with an open bracket or call. -/
  | unclosed (opening : String) (offset : Nat)
  deriving DecidableEq, Repr

/-- A fault in the order of tokens, or a limit that is passed. -/
inductive SyntaxError where
  /-- There is no token. -/
  | emptyFormula
  /-- A token stands where it cannot. -/
  | invalid
  /-- Brackets and calls nest deeper than the limit. -/
  | tooDeep (limit : Nat)
  /-- The tree grows higher than the limit. -/
  | tooHigh (limit : Nat)
  /-- A symbol is not in the operator table. -/
  | unsupportedOperator (symbol : String)
  /-- The text of a number token is no number. -/
  | invalidNumber (text : String)
  /-- The parser made no progress. -/
  | stalled
  /-- The parser read past the last token. -/
  | pastEnd
  /-- No sentinel stands where one was pushed. -/
  | missingSentinel
  /-- An operator or a call has fewer operands than it takes. -/
  | missingOperand
  /-- Operands are left when the tree is finished. -/
  | leftoverOperands
  deriving DecidableEq, Repr

/-- Why a formula is refused. -/
inductive FormulaError where
  | lex (cause : LexError)
  | grammar (cause : SyntaxError)
  deriving DecidableEq, Repr

/-- The wording of a fault in the characters. -/
def LexError.message : LexError → String
  | .rowOutsideArray offset => "Row separator outside an array at " ++ toString offset
  | .noArrayToClose offset => "No array to close at " ++ toString offset
  | .noOpener offset => "No matching opener for ')' at " ++ toString offset
  | .unfinishedText => "Reached end of formula while parsing string"
  | .unfinishedPath => "Reached end of formula while parsing sheet name"
  | .unfinishedBracket => "Encountered unmatched '['"
  | .unfinishedErrorLiteral text => "Invalid error code '" ++ text ++ "'"
  | .unclosed opening offset => "Unmatched opening '" ++ opening ++ "' at " ++ toString offset

/-- The wording of a fault in the tokens. -/
def SyntaxError.message : SyntaxError → String
  | .emptyFormula => "Empty formula"
  | .tooDeep limit => "Formula nesting exceeds " ++ toString limit ++ " levels"
  | .tooHigh limit => "Expression exceeds " ++ toString limit ++ " levels"
  | .unsupportedOperator symbol => "unsupported operator " ++ symbol
  | .invalidNumber text => "Invalid number " ++ text
  | .invalid | .stalled | .pastEnd | .missingSentinel | .missingOperand | .leftoverOperands =>
    "Invalid Syntax"

namespace FormulaError

/-- The name of the kind of fault. -/
def kind : FormulaError → String
  | .lex _ => "lex"
  | .grammar _ => "syntax"

/-- The wording of the fault. -/
def message : FormulaError → String
  | .lex cause => cause.message
  | .grammar cause => cause.message

/-- Kind and wording on one line. -/
def describe (error : FormulaError) : String := error.kind ++ " error: " ++ error.message

end FormulaError

end SheetFormula
