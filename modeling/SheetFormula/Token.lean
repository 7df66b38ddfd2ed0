/-!
# Tokens

A token is a classified piece of a formula: its text, its kind with a subkind, and the bytes that
it covers.
-/

namespace SheetFormula

/-- What a token is. -/
inductive Token.Kind where
  | unspecified
  | noop
  | operand
  | function
  | subexpr
  | argument
  | prefixOp
  | infixOp
  | postfixOp
  | whitespace
  | unknown
  deriving DecidableEq, Repr

/-- What kind of operand, operator or bracket a token is. -/
inductive Token.Subkind where
  | unspecified
  | start
  | stop
  | text
  | number
  | logical
  | error
  | range
  | math
  | concat
  | intersect
  | union
  deriving DecidableEq, Repr

/-- A classified piece of a formula. -/
structure Token where
  value : String
  kind : Token.Kind
  subkind : Token.Subkind
  /-- The byte where the token starts. -/
  start : Nat
  /-- The byte after the token. -/
  stop : Nat
  deriving DecidableEq, Repr

namespace Token

/-- The name of a kind in listings. -/
def Kind.name : Kind → String
  | .unspecified => "Unspecified"
  | .noop => "Noop"
  | .operand => "Operand"
  | .function => "Function"
  | .subexpr => "Subexpr"
  | .argument => "Argument"
  | .prefixOp => "OpPrefix"
  | .infixOp => "OpInfix"
  | .postfixOp => "OpPostfix"
  | .whitespace => "Whitespace"
  | .unknown => "Unknown"

/-- All kinds. -/
def Kind.all : List Kind :=
  [.unspecified, .noop, .operand, .function, .subexpr, .argument, .prefixOp, .infixOp, .postfixOp,
   .whitespace, .unknown]

/-- The kind with this name. -/
def Kind.ofName? (name : String) : Option Kind := Kind.all.find? fun kind => kind.name == name

/-- The name of a subkind in listings. -/
def Subkind.name : Subkind → String
  | .unspecified => "Unspecified"
  | .start => "Start"
  | .stop => "Stop"
  | .text => "Text"
  | .number => "Number"
  | .logical => "Logical"
  | .error => "Error"
  | .range => "Range"
  | .math => "Math"
  | .concat => "Concat"
  | .intersect => "Intersect"
  | .union => "Union"

/-- All subkinds. -/
def Subkind.all : List Subkind :=
  [.unspecified, .start, .stop, .text, .number, .logical, .error, .range, .math, .concat,
   .intersect, .union]

/-- The subkind with this name. -/
def Subkind.ofName? (name : String) : Option Subkind :=
  Subkind.all.find? fun subkind => subkind.name == name

theorem Kind.ofName?_name (kind : Kind) : Kind.ofName? kind.name = some kind := by
  cases kind <;> rfl

theorem Subkind.ofName?_name (subkind : Subkind) :
    Subkind.ofName? subkind.name = some subkind := by
  cases subkind <;> rfl

/-- The token on one line. -/
def describe (token : Token) : String :=
  "<" ++ token.kind.name ++ " subtype: " ++ token.subkind.name ++ " value: " ++ token.value ++ ">"

/-- Whether a token has this kind and subkind. -/
def is (token : Token) (kind : Kind) (subkind : Subkind) : Bool :=
  token.kind == kind && token.subkind == subkind

theorem is_iff {token : Token} {kind : Token.Kind} {subkind : Token.Subkind} :
    token.is kind subkind ↔ token.kind = kind ∧ token.subkind = subkind := by simp [is]

/-! ## Operands -/

/-- A number literal. -/
def isNumber (token : Token) : Bool := token.is .operand .number

/-- A text literal. -/
def isText (token : Token) : Bool := token.is .operand .text

/-- A logical literal. -/
def isLogical (token : Token) : Bool := token.is .operand .logical

/-- A reference or a name. -/
def isRange (token : Token) : Bool := token.is .operand .range

/-- An error literal. -/
def isError (token : Token) : Bool := token.is .operand .error

/-- A piece that no rule recognises. -/
def isUnknown (token : Token) : Bool := token.kind == .unknown

/-- An operand that is a whole expression by itself. -/
def isTerminal (token : Token) : Bool :=
  token.isNumber || token.isText || token.isLogical || token.isRange

/-! ## Brackets and calls -/

/-- An opening parenthesis. -/
def opensGroup (token : Token) : Bool := token.is .subexpr .start

/-- A closing parenthesis. -/
def closesGroup (token : Token) : Bool := token.is .subexpr .stop

/-- The name of a call with its opening parenthesis, or an opening brace. -/
def opensCall (token : Token) : Bool := token.is .function .start

/-- The end of a call, an array or a row. -/
def closesCall (token : Token) : Bool := token.is .function .stop

/-- An argument or row separator. -/
def separatesArguments (token : Token) : Bool := token.kind == .argument

theorem separatesArguments_of_closesCall {token : Token} (h : token.closesCall) :
    token.separatesArguments = false := by
  simp [separatesArguments, (is_iff.1 h).1]

/-- The start of a call or parenthesis. -/
def opensBracket (token : Token) : Bool := token.opensCall || token.opensGroup

/-- The end of a call or parenthesis. -/
def closesBracket (token : Token) : Bool := token.closesCall || token.closesGroup

/-- The name of the call that an array literal stands for. -/
def arrayName : String := "ARRAY"

/-- The name of the call that a row of an array literal stands for. -/
def arrayRowName : String := "ARRAYROW"

/-- The start of a row inside braces. It covers no text, unlike a call written by that name. -/
def opensRow (token : Token) : Bool :=
  token.opensCall && token.value == arrayRowName && token.start == token.stop

/-! ## Operators -/

/-- An operator in front of its operand. -/
def isPrefixOp (token : Token) : Bool := token.kind == .prefixOp

/-- An operator between its operands. -/
def isInfixOp (token : Token) : Bool := token.kind == .infixOp

/-- An operator behind its operand. -/
def isPostfixOp (token : Token) : Bool := token.kind == .postfixOp

end Token

end SheetFormula
