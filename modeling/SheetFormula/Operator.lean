import SheetFormula.Error

/-!
# Operators

The operator table and the rule by which a waiting operator is applied before the next one.

1. `Operator.binary` and `Operator.unary` look a symbol up; a higher precedence binds tighter.
2. A waiting operator goes before a binary one unless the latter binds tighter, so operators of
   equal precedence associate to the left. It never goes before a prefix operator.
-/

namespace SheetFormula

/-- How many operands an operator takes. -/
inductive Arity where
  | unary
  | binary
  deriving DecidableEq, Repr

/-- The name of the arity in listings. -/
def Arity.name : Arity → String
  | .unary => "Unary"
  | .binary => "Binary"

/-- An operator as it waits for its operands. -/
structure Operator where
  symbol : String
  precedence : Nat
  arity : Arity
  deriving DecidableEq, Repr

namespace Operator

/-- The binary operators with their precedences: intersection and union of references, the power,
products, sums, joined texts, comparisons. -/
def binaryTable : List (String × Nat) :=
  [(" ", 8), (",", 8), ("^", 5), ("*", 4), ("/", 4), ("+", 3), ("-", 3), ("&", 2),
   ("=", 1), ("<>", 1), ("<=", 1), (">=", 1), (">", 1), ("<", 1)]

/-- The precedence of a binary operator; `none` for a symbol that is none. -/
def binaryPrecedence? (symbol : String) : Option Nat := binaryTable.lookup symbol

theorem mem_binaryTable {symbol : String} {precedence : Nat}
    (h : binaryPrecedence? symbol = some precedence) : (symbol, precedence) ∈ binaryTable := by
  obtain ⟨before, after, hsplit, -⟩ := List.lookup_eq_some_iff.1 h
  rw [hsplit]
  exact List.mem_append_right _ List.mem_cons_self

/-- The precedence of the prefix operator. -/
def prefixPrecedence : Nat := 7

/-- Looks up a binary operator. -/
def binary (symbol : String) : Except SyntaxError Operator :=
  match binaryPrecedence? symbol with
  | some precedence => .ok ⟨symbol, precedence, .binary⟩
  | none => .error (.unsupportedOperator symbol)

/-- Looks up a prefix operator: the minus sign is the only one. -/
def unary (symbol : String) : Except SyntaxError Operator :=
  if symbol = "-" then .ok ⟨symbol, prefixPrecedence, .unary⟩
  else .error (.unsupportedOperator symbol)

/-- Whether this operator, when it waits, is applied before `incoming` starts to wait. -/
def precedes (waiting incoming : Operator) : Bool :=
  match incoming.arity with
  | .unary => false
  | .binary => incoming.precedence ≤ waiting.precedence

end Operator

/-- What waits on the operator stack: an operator, or the mark of an open bracket. -/
inductive Waiting where
  | sentinel
  | operator (op : Operator)
  deriving DecidableEq, Repr

/-- Nothing is applied across a sentinel. -/
def Waiting.precedes : Waiting → Operator → Bool
  | .sentinel, _ => false
  | .operator op, incoming => op.precedes incoming

end SheetFormula
