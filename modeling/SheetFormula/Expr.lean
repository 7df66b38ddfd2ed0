import SheetFormula.Number.Binary64
import SheetFormula.Reference

/-!
# Expression trees

What a formula means, as a tree. Operators are kept by their symbols and numbers by their values.
-/

namespace SheetFormula

/-- An expression. -/
inductive Expr where
  | number (value : Number.Binary64)
  | text (value : String)
  | logical (value : Bool)
  | cell (ref : Reference)
  | cellRange (first last : Reference)
  | unary (op : String) (operand : Expr)
  | binary (op : String) (left right : Expr)
  | call (name : String) (args : List Expr)
  /-- An error literal used as a value. -/
  | errorValue (value : String)
  /-- An argument that is left out. -/
  | emptyArgument
  /-- A token that no rule understands. -/
  | unknown (raw : String)
  deriving Repr, Inhabited

namespace Expr

/-- The reference with this text: a range where it holds a `:`, split at the first one, else a
single cell. -/
def reference (text : String) : Expr :=
  let chars := text.toList
  let first := chars.takeWhile (· != ':')
  match chars.dropWhile (· != ':') with
  | [] => .cell (.ofText text)
  | _ :: last => .cellRange (.ofText (String.ofList first)) (.ofText (String.ofList last))

mutual

/-- The references in an expression, from left to right. -/
def references : Expr → List Expr
  | cell ref => [cell ref]
  | cellRange first last => [cellRange first last]
  | unary _ operand => operand.references
  | binary _ left right => left.references ++ right.references
  | call _ args => referencesOfList args
  | _ => []

/-- The references in a list of arguments. -/
def referencesOfList : List Expr → List Expr
  | [] => []
  | arg :: rest => arg.references ++ referencesOfList rest

end

mutual

/-- Equality of trees, their numbers compared as numbers: zeros of both signs are equal, and a
number that is `nan` differs from itself. -/
def equals : Expr → Expr → Bool
  | number a, number b => a.equals b
  | text a, text b => a == b
  | logical a, logical b => a == b
  | cell a, cell b => a == b
  | cellRange a b, cellRange c d => a == c && b == d
  | unary op a, unary op' b => op == op' && a.equals b
  | binary op a b, binary op' c d => op == op' && a.equals c && b.equals d
  | call name args, call name' args' => name == name' && equalLists args args'
  | errorValue a, errorValue b => a == b
  | emptyArgument, emptyArgument => true
  | unknown a, unknown b => a == b
  | _, _ => false

/-- Equality of argument lists. -/
def equalLists : List Expr → List Expr → Bool
  | [], [] => true
  | a :: as, b :: bs => a.equals b && equalLists as bs
  | _, _ => false

end

end Expr

end SheetFormula
