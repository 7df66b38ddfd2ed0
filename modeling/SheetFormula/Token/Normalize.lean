import SheetFormula.Locale
import SheetFormula.Token

/-!
# From raw tokens to resolved tokens

Three passes over the raw tokens of a scan.

1. `settleGaps` drops white space, except between two operands: there it is the operator that
   intersects two ranges.
2. `resolve` tells signs from binary operators, names the family of each operator, and tells
   numbers, logical literals and references apart. Literals take their canonical spelling.
3. `withoutNoops` drops the signs `+`.
-/

namespace SheetFormula.Token

/-! ## White space -/

/-- Whether an intersection may stand behind a token. -/
def endsValue (token : Token) : Bool := token.closesBracket || token.kind == .operand

/-- Whether an intersection may stand in front of a token. -/
def startsValue (token : Token) : Bool := token.opensBracket || token.kind == .operand

/-- Settles white space behind the token `previous`. -/
def settleFrom (previous : Option Token) : List Token → List Token
  | [] => []
  | token :: rest =>
    let settled := settleFrom (some token) rest
    if token.kind ≠ .whitespace then token :: settled
    else if previous.any endsValue && rest.head?.any startsValue then
      { token with kind := .infixOp, subkind := .intersect } :: settled
    else settled

/-- Drops white space that does not intersect two operands. -/
def settleGaps (tokens : List Token) : List Token := settleFrom none tokens

/-! ## Resolution -/

/-- Whether a sign behind this token is a binary operator. -/
def behindValue (previous : Option Token) : Bool :=
  previous.any fun token => token.closesBracket || token.isPostfixOp || token.kind == .operand

/-- The family of a binary operator. -/
def operatorFamily (symbol : String) : Subkind :=
  match symbol.toList with
  | '<' :: _ | '>' :: _ | '=' :: _ => .logical
  | ['&'] => .concat
  | _ => .math

/-- Resolves an operand: a number, a logical literal, or else a reference. -/
def resolveOperand (locale : Locale) (token : Token) : Token :=
  if (locale.readNumber? token.value).isSome then
    { token with value := locale.canonical token.value, subkind := .number }
  else match locale.readLogical? token.value with
    | some value =>
      { token with value := Locale.enUS.logicalLiteral value, subkind := .logical }
    | none => { token with subkind := .range }

/-- A call name without its leading `@`. -/
def stripAt (token : Token) : Token :=
  match token.value.toList with
  | '@' :: name => { token with value := String.ofList name }
  | _ => token

/-- Resolves a sign: binary behind an operand, else the minus sign or no operator at all. -/
def resolveSign (previous : Option Token) (token : Token) (alone : Kind) : Token :=
  if behindValue previous then { token with subkind := .math } else { token with kind := alone }

/-- Resolves one token, given the resolved token in front of it. -/
def resolveOne (locale : Locale) (previous : Option Token) (token : Token) : Token :=
  match token.kind with
  | .infixOp =>
    if token.value = "-" then resolveSign previous token .prefixOp
    else if token.value = "+" then resolveSign previous token .noop
    else if token.subkind = .unspecified then
      { token with subkind := operatorFamily token.value }
    else token
  | .operand => if token.subkind = .unspecified then resolveOperand locale token else token
  | .function => stripAt token
  | _ => token

/-- Resolves the tokens behind the resolved token `previous`. -/
def resolveFrom (locale : Locale) (previous : Option Token) : List Token → List Token
  | [] => []
  | token :: rest =>
    let resolved := resolveOne locale previous token
    resolved :: resolveFrom locale (some resolved) rest

/-- Resolves all tokens. -/
def resolve (locale : Locale) (tokens : List Token) : List Token :=
  resolveFrom locale none tokens

/-! ## All passes -/

/-- Drops the tokens that do nothing. -/
def withoutNoops (tokens : List Token) : List Token :=
  tokens.filter fun token => token.kind != .noop

/-- All three passes. -/
def normalize (locale : Locale) (tokens : List Token) : List Token :=
  withoutNoops (resolve locale (settleGaps tokens))

end SheetFormula.Token
