import SheetFormula.Expr
import SheetFormula.Number.Layout
import SheetFormula.Text.Quoted
import SheetFormula.Token

/-!
# Writing expressions as formula text

`Expr.display` is the canonical en-US text of an expression, without the leading `=`.

1. An operand is put in parentheses where it binds more loosely than its operator; a right operand
   also where it binds equally, because operators associate to the left.
2. A percent sign puts a number in parentheses, since `5%` reads as one number, and a negation,
   since `-A1%` negates `A1%`.
3. A call that stands for an array literal is written in braces.
-/

namespace SheetFormula.Expr

/-- The symbol of the percentage operator. -/
def percentSign : String := "%"

/-- How tightly a binary operator binds where it is written. A comparison binds most loosely. -/
def operatorPrecedence : String → Nat
  | " " | "," => 8
  | "^" => 5
  | "*" | "/" => 4
  | "+" | "-" => 3
  | "&" => 2
  | _ => 1

/-- How tightly an expression binds; a literal, a reference or a call binds tightest. -/
def precedence : Expr → Nat
  | binary op _ _ => operatorPrecedence op
  | unary op _ => if op = percentSign then 6 else 7
  | _ => 9

/-- Whether the operand of a percent sign needs parentheses. -/
def guardedFromPercent : Expr → Bool
  | number _ => true
  | unary op _ => op ≠ percentSign
  | operand => operand.precedence < 6

/-- Whether an expression is a row of an array literal. -/
def isArrayRow : Expr → Bool
  | call name _ => name == Token.arrayRowName
  | _ => false

/-- Whether a call stands for an array literal. -/
def isArray (name : String) (args : List Expr) : Bool :=
  name == Token.arrayName && !args.isEmpty && args.all isArrayRow

/-- A text in parentheses if need be. -/
def wrapped (needed : Bool) (text : String) : String :=
  if needed then "(" ++ text ++ ")" else text

mutual

/-- The text of an expression. -/
def display : Expr → String
  | number value => Number.Layout.canonical.write value
  | text value => Text.quoted value
  | logical value => if value then "TRUE" else "FALSE"
  | cell ref => ref.raw
  | cellRange first last => first.raw ++ ":" ++ last.raw
  | unary op operand =>
    if op = percentSign then wrapped operand.guardedFromPercent operand.display ++ op
    else op ++ wrapped (operand.precedence < (unary op operand).precedence) operand.display
  | binary op left right =>
    let own := (binary op left right).precedence
    wrapped (left.precedence < own) left.display ++ op ++
      wrapped (right.precedence ≤ own) right.display
  | call name args =>
    if isArray name args then "\x7b" ++ displayRows args ++ "\x7d"
    else name ++ "(" ++ displayList args ++ ")"
  | errorValue value => value
  | emptyArgument => ""
  | unknown raw => raw

/-- The text of arguments, with commas between them. -/
def displayList : List Expr → String
  | [] => ""
  | [arg] => arg.display
  | arg :: rest => arg.display ++ "," ++ displayList rest

/-- The text of the rows of an array, with semicolons between them. -/
def displayRows : List Expr → String
  | [] => ""
  | [row] => row.displayRow
  | row :: rest => row.displayRow ++ ";" ++ displayRows rest

/-- The text of a row without its call. -/
def displayRow : Expr → String
  | call _ args => displayList args
  | _ => ""

end

end SheetFormula.Expr
