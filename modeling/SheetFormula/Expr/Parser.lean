import SheetFormula.Error
import SheetFormula.Expr
import SheetFormula.Number.Reader
import SheetFormula.Operator
import SheetFormula.Token.Cursor

/-!
# From tokens to an expression

Finished subtrees and waiting operators stand on two stacks. An operator waits until the operator
behind its last operand is known.

1. A subtree carries its height. An operator that is applied takes its operands off the stack and
   puts its own tree there; a tree above the height limit is refused, except a leaf.
2. A parenthesis or a call puts a sentinel on the stack of operators, below which nothing is applied
   while it is open, and counts towards the depth limit.
3. `expression`, `chain`, `operand` and `arguments` call each other on `fuel`. Every call reads a
   token or passes the turn to one that does, so that three for each token and three more are
   enough; a run that used them up would have `stalled`.
4. `Parser.parse` refuses a list without tokens, and one of which something is left.
-/

namespace SheetFormula.Parser

/-- The limits of a run. -/
structure Limits where
  /-- How deep parentheses and calls may nest. -/
  depth : Nat
  /-- How high the tree may grow. -/
  height : Nat
  deriving DecidableEq, Repr

/-- The limits of a run that names none. -/
def Limits.standard : Limits := ⟨256, 1024⟩

/-- A finished tree with its height. -/
structure Subtree where
  expr : Expr
  height : Nat
  deriving Repr

/-- A run between two steps. Both stacks have their top first. -/
structure State where
  cursor : Token.Cursor
  subtrees : List Subtree
  waiting : List Waiting
  /-- How many parentheses and calls are open. -/
  depth : Nat
  deriving Repr

/-- The outcome of a step. -/
abbrev Outcome := Except SyntaxError State

/-! ## Applying operators -/

/-- Puts a tree on the stack unless it is too high. -/
def stack (limits : Limits) (expr : Expr) (height : Nat) (subtrees : List Subtree) :
    Except SyntaxError (List Subtree) :=
  if limits.height < height then .error (.tooHigh limits.height)
  else .ok (⟨expr, height⟩ :: subtrees)

/-- Applies an operator to the subtrees on top of the stack, of which the last operand is the
topmost. -/
def applyOperator (limits : Limits) (op : Operator) (subtrees : List Subtree) :
    Except SyntaxError (List Subtree) :=
  match op.arity, subtrees with
  | .binary, right :: left :: below =>
    stack limits (.binary op.symbol left.expr right.expr) (1 + max left.height right.height) below
  | .unary, only :: below => stack limits (.unary op.symbol only.expr) (only.height + 1) below
  | _, _ => .error .missingOperand

/-- Applies operators from the top of their stack as long as they pass the test. -/
def applyWhile (limits : Limits) (test : Waiting → Bool) :
    List Waiting → List Subtree → Except SyntaxError (List Waiting × List Subtree)
  | [], subtrees => .ok ([], subtrees)
  | top :: below, subtrees =>
    if test top then
      match top with
      | .sentinel => .error .missingSentinel
      | .operator op => do applyWhile limits test below (← applyOperator limits op subtrees)
    else .ok (top :: below, subtrees)

namespace State

/-- The state in front of the first token. -/
def initial (tokens : List Token) : State := ⟨.ofTokens tokens, [], [.sentinel], 0⟩

/-- The next token. -/
def peek (s : State) : Token := s.cursor.peek

/-- Passes the next token. -/
def advance (s : State) : Outcome := do
  return { s with cursor := ← s.cursor.advance }

/-- Puts a leaf on the stack. -/
def addLeaf (s : State) (expr : Expr) : State := { s with subtrees := ⟨expr, 1⟩ :: s.subtrees }

/-- Puts a tree on the stack unless it is too high. -/
def addTree (limits : Limits) (s : State) (expr : Expr) (height : Nat) : Outcome := do
  return { s with subtrees := ← stack limits expr height s.subtrees }

/-- Takes the topmost subtree. -/
def pop (s : State) : Except SyntaxError (Subtree × State) :=
  match s.subtrees with
  | [] => .error .missingOperand
  | top :: below => .ok (top, { s with subtrees := below })

/-- Takes the topmost `count` subtrees, in the order in which they were put there. -/
def popMany (s : State) (count : Nat) : Except SyntaxError (List Subtree × State) :=
  let top := s.subtrees.take count
  if top.length < count then .error .missingOperand
  else .ok (top.reverse, { s with subtrees := s.subtrees.drop count })

/-- Applies the waiting operators that pass the test. -/
def reduceWhile (limits : Limits) (s : State) (test : Waiting → Bool) : Outcome := do
  let (waiting, subtrees) ← applyWhile limits test s.waiting s.subtrees
  return { s with waiting := waiting, subtrees := subtrees }

/-- Applies the operators above the topmost sentinel. -/
def reduceAll (limits : Limits) (s : State) : Outcome :=
  s.reduceWhile limits (· != .sentinel)

/-- Lets an operator wait, after those that precede it. -/
def wait (limits : Limits) (s : State) (op : Operator) : Outcome := do
  let s ← s.reduceWhile limits fun top => top.precedes op
  return { s with waiting := .operator op :: s.waiting }

/-- Opens a parenthesis or a call. -/
def enter (limits : Limits) (s : State) : Outcome :=
  if limits.depth ≤ s.depth then .error (.tooDeep limits.depth)
  else .ok { s with waiting := .sentinel :: s.waiting, depth := s.depth + 1 }

/-- Closes a parenthesis or a call. -/
def leave (s : State) : Outcome :=
  match s.waiting with
  | .sentinel :: below => .ok { s with waiting := below, depth := s.depth - 1 }
  | _ => .error .missingSentinel

end State

/-! ## Operands without brackets -/

/-- Reads the number of a token that is passed. A percent sign directly behind it belongs to it. -/
def number (token : Token) (s : State) : Outcome :=
  match Number.Binary64.ofText? token.value with
  | none => .error (.invalidNumber token.value)
  | some value =>
    if s.peek.isPostfixOp then do
      let s ← s.advance
      return s.addLeaf (.number value.percent)
    else .ok (s.addLeaf (.number value))

/-- Reads a literal or a reference. -/
def terminal (s : State) : Outcome := do
  let token := s.peek
  let s ← s.advance
  if token.isNumber then number token s
  else if token.isText then return s.addLeaf (.text token.value)
  else if token.isLogical then return s.addLeaf (.logical (token.value == "TRUE"))
  else return s.addLeaf (.reference token.value)

/-- Applies one operator behind its operand. -/
def applyPostfix (limits : Limits) (s : State) (token : Token) : Outcome := do
  let s ← s.advance
  let (only, s) ← s.pop
  s.addTree limits (.unary token.value only.expr) (only.height + 1)

/-- Reads the operators behind an operand. -/
def trailing (limits : Limits) (s : State) : Outcome :=
  (s.cursor.unread.takeWhile Token.isPostfixOp).foldlM (applyPostfix limits) s

/-- Makes a call of the topmost `arity` subtrees and passes the token that closes it. -/
def finishCall (limits : Limits) (name : String) (arity : Nat) (s : State) : Outcome := do
  let (args, s) ← s.popMany arity
  let s ← s.leave
  let height := 1 + (args.map (·.height)).foldl max 0
  let s ← s.addTree limits (.call name (args.map (·.expr))) height
  s.advance

/-! ## Expressions -/

mutual

/-- Reads an expression up to the first token that cannot continue it, and applies its
operators. -/
def expression (limits : Limits) : Nat → State → Outcome
  | 0, _ => .error .stalled
  | fuel + 1, s => do chain limits fuel (← operand limits fuel s)

/-- Reads binary operators, each with its right operand. -/
def chain (limits : Limits) : Nat → State → Outcome
  | 0, _ => .error .stalled
  | fuel + 1, s =>
    if s.peek.isInfixOp then do
      let op ← Operator.binary s.peek.value
      let s ← s.wait limits op
      let s ← s.advance
      chain limits fuel (← operand limits fuel s)
    else s.reduceAll limits

/-- Reads an operand with the operators in front of it and behind it. -/
def operand (limits : Limits) : Nat → State → Outcome
  | 0, _ => .error .stalled
  | fuel + 1, s =>
    let token := s.peek
    if token.isPrefixOp then do
      let op ← Operator.unary token.value
      let s ← s.wait limits op
      operand limits fuel (← s.advance)
    else if token.isTerminal then do
      trailing limits (← terminal s)
    else if token.opensGroup then do
      let s ← s.advance
      let s ← expression limits fuel (← s.enter limits)
      let s ← s.leave
      if s.peek.closesGroup then trailing limits (← s.advance) else .error .invalid
    else if token.opensCall then do
      let s ← s.advance
      let (arity, s) ← arguments limits fuel false 0 (← s.enter limits)
      trailing limits (← finishCall limits token.value arity s)
    else if token.isError then do
      trailing limits ((← s.advance).addLeaf (.errorValue token.value))
    else if token.isUnknown then do
      trailing limits ((← s.advance).addLeaf (.unknown token.value))
    else .error .invalid

/-- Reads arguments up to the token that closes the call, behind `arity` arguments and, if
`separated`, a separator. A slot without a token is an empty argument; a call with nothing between
its brackets has none. -/
def arguments (limits : Limits) : Nat → Bool → Nat → State → Except SyntaxError (Nat × State)
  | 0, _, _, _ => .error .stalled
  | fuel + 1, separated, arity, s =>
    if s.peek.closesCall then
      if separated then .ok (arity + 1, s.addLeaf .emptyArgument) else .ok (arity, s)
    else do
      let s ←
        if s.peek.separatesArguments then pure (s.addLeaf .emptyArgument)
        else expression limits fuel s
      if s.peek.separatesArguments then arguments limits fuel true (arity + 1) (← s.advance)
      else if s.peek.closesCall then .ok (arity + 1, s)
      else .error .invalid

end

/-- Reads all tokens of a formula. -/
def parse (limits : Limits) (tokens : List Token) : Except SyntaxError Expr :=
  if tokens.isEmpty then .error .emptyFormula
  else do
    let s ← expression limits (3 * tokens.length + 3) (.initial tokens)
    if !s.cursor.atEnd then .error .invalid
    else
      let (root, s) ← s.pop
      if !s.subtrees.isEmpty then .error .leftoverOperands else return root.expr

end SheetFormula.Parser
