import SheetFormula.Expr
import SheetFormula.Operator
import SheetFormula.Proofs.NumberLiterals
import SheetFormula.Token

/-!
# The grammar of expressions

A recursive reader of tokens, without stacks: it climbs the precedences.

1. `climb least` reads the longest expression whose operators have at least the precedence `least`:
   an operand, and behind it a `chain` of operators with their right operands. A right operand is
   read with a larger `least`, so that operators associate to the left.
2. A minus sign takes the longest expression of intersections and unions behind it. Every other
   operand is a primary with the postfix operators behind it; the first one behind a number scales
   the number. The table of operators and the numbers are the grammar's own; by `precedence?_eq`,
   `negationLevel_eq` and `NumberLiteral.read?_eq` they are those of the parser.
3. A call without a token between its brackets has no argument. Any other call has one argument more
   than separators, and an argument without a token is an empty one.
4. `Rules.below` is the induction over what the functions read. By `length_climb` they always read
   on, so that the equations do without the tests of it.
-/

namespace SheetFormula

namespace Expr

mutual

/-- The height of an expression; a leaf has height one. -/
def height : Expr → Nat
  | unary _ operand => operand.height + 1
  | binary _ left right => 1 + max left.height right.height
  | call _ args => 1 + heightOfList args
  | _ => 1

/-- The height of the highest expression of a list, zero for the empty list. -/
def heightOfList : List Expr → Nat
  | [] => 0
  | arg :: rest => max arg.height (heightOfList rest)

end

theorem height_pos (e : Expr) : 0 < e.height := by
  cases e <;> simp only [height] <;> omega

theorem height_reference (text : String) : (reference text).height = 1 := by
  simp only [reference]
  split <;> rfl

end Expr

namespace Grammar

open Number (Binary64)

/-! ## Operators -/

/-- How tightly a binary operator binds; `none` for a symbol that is none. -/
def precedence? : String → Option Nat
  | " " | "," => some 8
  | "^" => some 5
  | "*" | "/" => some 4
  | "+" | "-" => some 3
  | "&" => some 2
  | "=" | "<>" | "<=" | ">=" | ">" | "<" => some 1
  | _ => none

/-- A minus sign takes the operators behind it that bind tighter than this. -/
def negationLevel : Nat := 7

theorem precedence?_eq (symbol : String) : precedence? symbol = Operator.binaryPrecedence? symbol := by
  unfold precedence?
  split <;> try rfl
  exact (List.lookup_eq_none_iff.2 (by simp_all [Operator.binaryTable])).symm

theorem negationLevel_eq : negationLevel = Operator.prefixPrecedence := rfl

/-! ## Reading -/

/-- Puts the postfix operators in front of a list of tokens around an expression. -/
def postfixes (e : Expr) : List Token → Expr × List Token
  | [] => (e, [])
  | token :: rest =>
    if token.isPostfixOp then postfixes (.unary token.value e) rest else (e, token :: rest)

/-- A number literal in front of a list of tokens. A postfix operator scales it. -/
def number (value : Binary64) : List Token → Expr × List Token
  | [] => (.number value, [])
  | token :: rest =>
    if token.isPostfixOp then (.number (NumberLiteral.hundredthOf value), rest)
    else (.number value, token :: rest)

/-- Passes the token behind an expression in parentheses. -/
def closeGroup (e : Expr) : List Token → Option (Expr × List Token)
  | [] => none
  | close :: rest => if close.closesGroup then some (e, rest) else none

mutual

/-- Reads the longest expression whose operators have at least this precedence. -/
def climb (least : Nat) (tokens : List Token) : Option (Expr × List Token) := do
  let (left, rest) ← operand tokens
  if rest.length < tokens.length then chain least left rest else none
termination_by (tokens.length, 2)

/-- Reads the operators of at least this precedence behind an expression, with their operands. -/
def chain (least : Nat) (left : Expr) (tokens : List Token) : Option (Expr × List Token) :=
  match tokens with
  | [] => some (left, [])
  | token :: rest =>
    if token.isInfixOp then do
      let precedence ← precedence? token.value
      if least ≤ precedence then
        let (right, rest') ← climb (precedence + 1) rest
        if rest'.length < rest.length then chain least (.binary token.value left right) rest'
        else none
      else some (left, token :: rest)
    else some (left, token :: rest)
termination_by (tokens.length, 0)

/-- Reads an operand with the operators in front of it and behind it. -/
def operand (tokens : List Token) : Option (Expr × List Token) :=
  match tokens with
  | [] => none
  | token :: rest =>
    if token.isPrefixOp then
      if token.value = "-" then do
        let (only, rest) ← climb (negationLevel + 1) rest
        some (.unary token.value only, rest)
      else none
    else do
      let (e, rest) ← primary token rest
      some (postfixes e rest)
termination_by (tokens.length, 1)

/-- Reads the operand that starts with this token, without postfix operators. -/
def primary (token : Token) (rest : List Token) : Option (Expr × List Token) :=
  if token.isNumber then (NumberLiteral.read? token.value).map fun value => number value rest
  else if token.isText then some (.text token.value, rest)
  else if token.isLogical then some (.logical (token.value == "TRUE"), rest)
  else if token.isRange then some (.reference token.value, rest)
  else if token.opensGroup then do
    let (e, rest) ← climb 0 rest
    closeGroup e rest
  else if token.opensCall then do
    let (args, rest) ← arguments rest
    some (.call token.value args, rest)
  else if token.isError then some (.errorValue token.value, rest)
  else if token.isUnknown then some (.unknown token.value, rest)
  else none
termination_by (rest.length + 1, 0)

/-- Reads the arguments of a call and the token that closes it. -/
def arguments (tokens : List Token) : Option (List Expr × List Token) :=
  match tokens with
  | [] => none
  | token :: rest => if token.closesCall then some ([], rest) else slots (token :: rest)
termination_by (tokens.length, 5)

/-- Reads one argument or more, with separators between them, and the token behind the last one. -/
def slots (tokens : List Token) : Option (List Expr × List Token) := do
  let (arg, rest) ← slot tokens
  match rest with
  | [] => none
  | token :: rest =>
    if token.separatesArguments then
      if rest.length < tokens.length then do
        let (args, rest) ← slots rest
        some (arg :: args, rest)
      else none
    else if token.closesCall then some ([arg], rest)
    else none
termination_by (tokens.length, 4)

/-- Reads one argument, which may be empty. -/
def slot (tokens : List Token) : Option (Expr × List Token) :=
  match tokens with
  | [] => none
  | token :: rest =>
    if token.separatesArguments || token.closesCall then some (.emptyArgument, token :: rest)
    else climb 0 (token :: rest)
termination_by (tokens.length, 3)

end

/-- The expression that a list of tokens writes, if it writes one. -/
def parse (tokens : List Token) : Option Expr :=
  match climb 0 tokens with
  | some (e, []) => some e
  | _ => none

/-! ## Induction over what is read -/

/-- Judgements that are closed under the rules by which the functions above read. -/
structure Rules (Climbs : Nat → List Token → Expr → List Token → Prop)
    (Chains : Nat → Expr → List Token → Expr → List Token → Prop)
    (Operands : List Token → Expr → List Token → Prop)
    (Primaries : Token → List Token → Expr → List Token → Prop)
    (Arguments : List Token → List Expr → List Token → Prop)
    (Slots : List Token → List Expr → List Token → Prop)
    (Slot : List Token → Expr → List Token → Prop) : Prop where
  climb {least tokens left rest e rest'} : Operands tokens left rest →
    Chains least left rest e rest' → Climbs least tokens e rest'
  /-- Nothing is left. -/
  chainEnd {least left} : Chains least left [] left []
  /-- The next token is no operator, or one that binds too loosely. -/
  chainStop {least left token rest} :
    (token.isInfixOp → ∃ precedence < least,
      precedence? token.value = some precedence) →
    Chains least left (token :: rest) left (token :: rest)
  chainStep {least left token rest precedence right rest' e rest''} : token.isInfixOp →
    precedence? token.value = some precedence → least ≤ precedence →
    Climbs (precedence + 1) rest right rest' →
    Chains least (.binary token.value left right) rest' e rest'' →
    Chains least left (token :: rest) e rest''
  minus {token rest only rest'} : token.isPrefixOp → token.value = "-" →
    Climbs (negationLevel + 1) rest only rest' →
    Operands (token :: rest) (.unary token.value only) rest'
  operand {token rest e rest'} : token.isPrefixOp = false → Primaries token rest e rest' →
    Operands (token :: rest) (postfixes e rest').1 (postfixes e rest').2
  number {token rest value} : token.isNumber → NumberLiteral.read? token.value = some value →
    Primaries token rest (number value rest).1 (number value rest).2
  text {token rest} : token.isText → Primaries token rest (.text token.value) rest
  logical {token rest} : token.isLogical →
    Primaries token rest (.logical (token.value == "TRUE")) rest
  reference {token rest} : token.isRange → Primaries token rest (.reference token.value) rest
  group {token rest e close rest'} : token.opensGroup → close.closesGroup →
    Climbs 0 rest e (close :: rest') → Primaries token rest e rest'
  call {token rest args rest'} : token.opensCall → Arguments rest args rest' →
    Primaries token rest (.call token.value args) rest'
  errorValue {token rest} : token.isError → Primaries token rest (.errorValue token.value) rest
  unknown {token rest} : token.isUnknown → Primaries token rest (.unknown token.value) rest
  noArguments {token rest} : token.closesCall → Arguments (token :: rest) [] rest
  someArguments {token tokens args rest} : token.closesCall = false →
    Slots (token :: tokens) args rest → Arguments (token :: tokens) args rest
  slotsStep {tokens arg token rest args rest'} : token.separatesArguments →
    Slot tokens arg (token :: rest) → Slots rest args rest' → Slots tokens (arg :: args) rest'
  slotsEnd {tokens arg token rest} : token.closesCall → Slot tokens arg (token :: rest) →
    Slots tokens [arg] rest
  emptySlot {token rest} : token.separatesArguments || token.closesCall →
    Slot (token :: rest) .emptyArgument (token :: rest)
  fullSlot {token rest e rest'} : (token.separatesArguments || token.closesCall) = false →
    Climbs 0 (token :: rest) e rest' → Slot (token :: rest) e rest'

/-- The judgements hold of what is read from fewer than `n` tokens. -/
structure Below (Climbs : Nat → List Token → Expr → List Token → Prop)
    (Chains : Nat → Expr → List Token → Expr → List Token → Prop)
    (Arguments Slots : List Token → List Expr → List Token → Prop) (n : Nat) : Prop where
  climb {least tokens r} : tokens.length < n → Grammar.climb least tokens = some r →
    Climbs least tokens r.1 r.2
  chain {least left tokens r} : tokens.length < n → Grammar.chain least left tokens = some r →
    Chains least left tokens r.1 r.2
  arguments {tokens r} : tokens.length < n → Grammar.arguments tokens = some r →
    Arguments tokens r.1 r.2
  slots {tokens r} : tokens.length < n → Grammar.slots tokens = some r → Slots tokens r.1 r.2

section

variable {Climbs : Nat → List Token → Expr → List Token → Prop}
  {Chains : Nat → Expr → List Token → Expr → List Token → Prop}
  {Operands : List Token → Expr → List Token → Prop}
  {Primaries : Token → List Token → Expr → List Token → Prop}
  {Arguments : List Token → List Expr → List Token → Prop}
  {Slots : List Token → List Expr → List Token → Prop}
  {Slot : List Token → Expr → List Token → Prop}

theorem closeGroup_eq_some {e : Expr} {tokens : List Token} {r : Expr × List Token}
    (h : closeGroup e tokens = some r) :
    ∃ close, close.closesGroup ∧ tokens = close :: r.2 ∧ e = r.1 := by
  cases tokens with
  | nil => cases h
  | cons close rest =>
    rw [closeGroup] at h
    split at h
    · rename_i hclose
      cases h
      exact ⟨close, hclose, rfl, rfl⟩
    · cases h

variable (h : Rules Climbs Chains Operands Primaries Arguments Slots Slot) {n : Nat}
  (hbelow : Below Climbs Chains Arguments Slots n)

include h hbelow

/-! What is read from `n` tokens is taken in the order in which the functions call each other. -/

theorem Rules.primary_of_below {token : Token} {rest : List Token} {r : Expr × List Token}
    (hn : rest.length < n) (hr : Grammar.primary token rest = some r) :
    Primaries token rest r.1 r.2 := by
  rw [Grammar.primary] at hr
  split at hr
  · rename_i hnumber
    obtain ⟨value, hv, rfl⟩ := Option.map_eq_some_iff.1 hr
    exact h.number hnumber hv
  split at hr
  · rename_i htext; cases hr; exact h.text htext
  split at hr
  · rename_i hlogical; cases hr; exact h.logical hlogical
  split at hr
  · rename_i hrange; cases hr; exact h.reference hrange
  split at hr
  · rename_i hgroup
    obtain ⟨⟨e, rest'⟩, hc, hr⟩ := Option.bind_eq_some_iff.1 hr
    obtain ⟨close, hclose, rfl, rfl⟩ := closeGroup_eq_some hr
    exact h.group hgroup hclose (hbelow.climb hn hc)
  split at hr
  · rename_i hcall
    obtain ⟨⟨args, rest'⟩, ha, hr⟩ := Option.bind_eq_some_iff.1 hr
    cases hr
    exact h.call hcall (hbelow.arguments hn ha)
  split at hr
  · rename_i herror; cases hr; exact h.errorValue herror
  split at hr
  · rename_i hunknown; cases hr; exact h.unknown hunknown
  · cases hr

theorem Rules.operand_of_below {tokens : List Token} {r : Expr × List Token}
    (hn : tokens.length ≤ n) (hr : Grammar.operand tokens = some r) :
    Operands tokens r.1 r.2 := by
  cases tokens with
  | nil => simp [Grammar.operand] at hr
  | cons token rest =>
    rw [Grammar.operand] at hr
    by_cases hp : token.isPrefixOp
    · by_cases hv : token.value = "-"
      · simp only [hp, hv, if_true] at hr
        obtain ⟨⟨only, rest'⟩, hc, hr⟩ := Option.bind_eq_some_iff.1 hr
        cases hr
        rw [← hv]
        exact h.minus hp hv (hbelow.climb hn hc)
      · simp only [hp, hv, if_true, if_false] at hr
        cases hr
    · simp only [hp] at hr
      obtain ⟨⟨e, rest'⟩, hc, hr⟩ := Option.bind_eq_some_iff.1 hr
      cases hr
      exact h.operand (by simpa using hp) (h.primary_of_below hbelow hn hc)

theorem Rules.chain_of_below {least : Nat} {left : Expr} {tokens : List Token}
    {r : Expr × List Token} (hn : tokens.length ≤ n)
    (hr : Grammar.chain least left tokens = some r) : Chains least left tokens r.1 r.2 := by
  cases tokens with
  | nil =>
    rw [Grammar.chain] at hr
    cases hr
    exact h.chainEnd
  | cons token rest =>
    rw [Grammar.chain] at hr
    by_cases hi : token.isInfixOp
    · simp only [hi, if_true] at hr
      obtain ⟨precedence, hp, hr⟩ := Option.bind_eq_some_iff.1 hr
      by_cases hl : least ≤ precedence
      · rw [if_pos hl] at hr
        obtain ⟨⟨right, rest'⟩, hc, hr⟩ := Option.bind_eq_some_iff.1 hr
        obtain ⟨hshort, hr⟩ := Option.ite_none_right_eq_some.1 hr
        exact h.chainStep hi hp hl (hbelow.climb hn hc)
          (hbelow.chain (Nat.lt_trans hshort hn) hr)
      · rw [if_neg hl] at hr
        cases hr
        exact h.chainStop fun _ => ⟨precedence, by omega, hp⟩
    · simp only [hi] at hr
      cases hr
      exact h.chainStop fun hi' => absurd hi' hi

theorem Rules.climb_of_below {least : Nat} {tokens : List Token} {r : Expr × List Token}
    (hn : tokens.length ≤ n) (hr : Grammar.climb least tokens = some r) :
    Climbs least tokens r.1 r.2 := by
  rw [Grammar.climb] at hr
  obtain ⟨⟨left, rest⟩, ho, hr⟩ := Option.bind_eq_some_iff.1 hr
  obtain ⟨hshort, hr⟩ := Option.ite_none_right_eq_some.1 hr
  exact h.climb (h.operand_of_below hbelow hn ho)
    (hbelow.chain (Nat.lt_of_lt_of_le hshort hn) hr)

theorem Rules.slot_of_below {tokens : List Token} {r : Expr × List Token}
    (hn : tokens.length ≤ n) (hr : Grammar.slot tokens = some r) : Slot tokens r.1 r.2 := by
  cases tokens with
  | nil => simp [Grammar.slot] at hr
  | cons token rest =>
    rw [Grammar.slot] at hr
    by_cases he : (token.separatesArguments || token.closesCall) = true
    · simp only [he, if_true] at hr
      cases hr
      exact h.emptySlot he
    · simp only [he] at hr
      exact h.fullSlot (by simpa using he) (h.climb_of_below hbelow hn hr)

theorem Rules.slots_of_below {tokens : List Token} {r : List Expr × List Token}
    (hn : tokens.length ≤ n) (hr : Grammar.slots tokens = some r) : Slots tokens r.1 r.2 := by
  rw [Grammar.slots] at hr
  obtain ⟨⟨arg, rest⟩, ha, hr⟩ := Option.bind_eq_some_iff.1 hr
  have harg := h.slot_of_below hbelow hn ha
  cases rest with
  | nil => cases hr
  | cons token rest =>
    by_cases hs : token.separatesArguments
    · simp only [hs, if_true] at hr
      obtain ⟨hshort, hr⟩ := Option.ite_none_right_eq_some.1 hr
      obtain ⟨⟨args, rest'⟩, hargs, hr⟩ := Option.bind_eq_some_iff.1 hr
      cases hr
      exact h.slotsStep hs harg (hbelow.slots (Nat.lt_of_lt_of_le hshort hn) hargs)
    · by_cases hc : token.closesCall
      · simp only [hs, hc, if_true] at hr
        cases hr
        exact h.slotsEnd hc harg
      · simp only [hs, hc] at hr
        cases hr

theorem Rules.arguments_of_below {tokens : List Token} {r : List Expr × List Token}
    (hn : tokens.length ≤ n) (hr : Grammar.arguments tokens = some r) :
    Arguments tokens r.1 r.2 := by
  cases tokens with
  | nil => simp [Grammar.arguments] at hr
  | cons token rest =>
    rw [Grammar.arguments] at hr
    by_cases hc : token.closesCall
    · simp only [hc, if_true] at hr
      cases hr
      exact h.noArguments hc
    · simp only [hc] at hr
      exact h.someArguments (by simpa using hc) (h.slots_of_below hbelow hn hr)

omit hbelow

/-- What is read satisfies every closed family of judgements. -/
theorem Rules.below (n : Nat) : Below Climbs Chains Arguments Slots n := by
  induction n with
  | zero => constructor <;> exact fun hn => absurd hn (Nat.not_lt_zero _)
  | succ n ih =>
    constructor
    · exact fun hn => h.climb_of_below ih (Nat.le_of_lt_succ hn)
    · exact fun hn => h.chain_of_below ih (Nat.le_of_lt_succ hn)
    · exact fun hn => h.arguments_of_below ih (Nat.le_of_lt_succ hn)
    · exact fun hn => h.slots_of_below ih (Nat.le_of_lt_succ hn)

theorem Rules.of_climb {least : Nat} {tokens : List Token} {r : Expr × List Token}
    (hr : Grammar.climb least tokens = some r) : Climbs least tokens r.1 r.2 :=
  h.climb_of_below (h.below _) (Nat.le_refl _) hr

theorem Rules.of_chain {least : Nat} {left : Expr} {tokens : List Token} {r : Expr × List Token}
    (hr : Grammar.chain least left tokens = some r) : Chains least left tokens r.1 r.2 :=
  h.chain_of_below (h.below _) (Nat.le_refl _) hr

theorem Rules.of_operand {tokens : List Token} {r : Expr × List Token}
    (hr : Grammar.operand tokens = some r) : Operands tokens r.1 r.2 :=
  h.operand_of_below (h.below _) (Nat.le_refl _) hr

theorem Rules.of_primary {token : Token} {rest : List Token} {r : Expr × List Token}
    (hr : Grammar.primary token rest = some r) : Primaries token rest r.1 r.2 :=
  h.primary_of_below (h.below _) (Nat.lt_succ_self _) hr

theorem Rules.of_slot {tokens : List Token} {r : Expr × List Token}
    (hr : Grammar.slot tokens = some r) : Slot tokens r.1 r.2 :=
  h.slot_of_below (h.below _) (Nat.le_refl _) hr

end

/-! ## Reading on -/

theorem height_postfixes (e : Expr) (tokens : List Token) :
    e.height ≤ (postfixes e tokens).1.height ∧
      (postfixes e tokens).1.height + (postfixes e tokens).2.length ≤
        e.height + tokens.length := by
  induction tokens generalizing e with
  | nil => exact ⟨Nat.le_refl _, Nat.le_refl _⟩
  | cons token rest ih =>
    rw [postfixes]
    split
    · obtain ⟨hle, hsum⟩ := ih (.unary token.value e)
      rw [Expr.height] at hle hsum
      rw [List.length_cons]
      omega
    · exact ⟨Nat.le_refl _, Nat.le_refl _⟩

theorem height_number (value : Binary64) (tokens : List Token) :
    (number value tokens).1.height = 1 ∧ (number value tokens).2.length ≤ tokens.length := by
  cases tokens with
  | nil => exact ⟨rfl, Nat.le_refl _⟩
  | cons token rest =>
    rw [number]
    split
    · exact ⟨rfl, Nat.le_succ _⟩
    · exact ⟨rfl, Nat.le_refl _⟩

/-- Every token that is read adds at most one to the height of what it is read into. -/
theorem heightRules : Rules
    (fun _ tokens e rest => e.height + rest.length ≤ tokens.length)
    (fun _ left tokens e rest => left.height ≤ e.height ∧
      e.height + rest.length ≤ left.height + tokens.length)
    (fun tokens e rest => e.height + rest.length ≤ tokens.length)
    (fun _ tokens e rest => e.height + rest.length ≤ tokens.length + 1)
    (fun tokens args rest => Expr.heightOfList args + rest.length ≤ tokens.length)
    (fun tokens args rest => Expr.heightOfList args + rest.length ≤ tokens.length)
    (fun tokens arg rest => arg.height + rest.length ≤ tokens.length + 1) where
  climb ho hc := by omega
  chainEnd := ⟨Nat.le_refl _, Nat.le_refl _⟩
  chainStop _ := ⟨Nat.le_refl _, Nat.le_refl _⟩
  chainStep _ _ _ hr hc := by
    rw [Expr.height] at hc
    rw [List.length_cons]
    omega
  minus _ _ hc := by
    rw [Expr.height, List.length_cons]
    omega
  operand {token rest e rest'} _ hp := by
    have := (height_postfixes e rest').2
    rw [List.length_cons]
    omega
  number {token rest value} _ _ := by
    obtain ⟨hh, hl⟩ := height_number value rest
    omega
  text _ := by simp only [Expr.height]; omega
  logical _ := by simp only [Expr.height]; omega
  reference _ := by rw [Expr.height_reference]; omega
  group _ _ hc := by
    rw [List.length_cons] at hc
    omega
  call _ ha := by
    rw [Expr.height]
    omega
  errorValue _ := by simp only [Expr.height]; omega
  unknown _ := by simp only [Expr.height]; omega
  noArguments _ := by
    rw [Expr.heightOfList, List.length_cons]
    omega
  someArguments _ hs := hs
  slotsStep _ ha hs := by
    rw [List.length_cons] at ha
    rw [Expr.heightOfList]
    omega
  slotsEnd _ ha := by
    rw [List.length_cons] at ha
    rw [Expr.heightOfList, Expr.heightOfList]
    omega
  emptySlot _ := by simp only [Expr.height]; omega
  fullSlot _ hc := by omega

/-- An expression is no higher than the number of its tokens. -/
theorem height_climb {least : Nat} {tokens rest : List Token} {e : Expr}
    (h : climb least tokens = some (e, rest)) : e.height + rest.length ≤ tokens.length :=
  heightRules.of_climb h

theorem length_climb {least : Nat} {tokens rest : List Token} {e : Expr}
    (h : climb least tokens = some (e, rest)) : rest.length < tokens.length := by
  have := height_climb h
  have := e.height_pos
  omega

theorem length_operand {tokens rest : List Token} {e : Expr}
    (h : operand tokens = some (e, rest)) : rest.length < tokens.length := by
  have : e.height + rest.length ≤ tokens.length := heightRules.of_operand h
  have := e.height_pos
  omega

theorem length_primary {token : Token} {tokens rest : List Token} {e : Expr}
    (h : primary token tokens = some (e, rest)) : rest.length ≤ tokens.length := by
  have : e.height + rest.length ≤ tokens.length + 1 := heightRules.of_primary h
  have := e.height_pos
  omega

theorem length_slot {tokens rest : List Token} {arg : Expr}
    (h : slot tokens = some (arg, rest)) : rest.length ≤ tokens.length := by
  have : arg.height + rest.length ≤ tokens.length + 1 := heightRules.of_slot h
  have := arg.height_pos
  omega

theorem height_parse {tokens : List Token} {e : Expr} (h : parse tokens = some e) :
    e.height ≤ tokens.length := by
  unfold parse at h
  split at h
  · rename_i e' hread
    cases h
    exact height_climb hread
  · cases h

/-- An operator makes an expression no lower. -/
theorem height_le_chain {least : Nat} {left : Expr} {tokens rest : List Token} {e : Expr}
    (h : chain least left tokens = some (e, rest)) : left.height ≤ e.height :=
  (heightRules.of_chain h).1

/-! ## Equations

The functions always read on, so that they need not look whether they do. -/

theorem climb_eq (least : Nat) (tokens : List Token) :
    climb least tokens = (operand tokens).bind fun r => chain least r.1 r.2 := by
  rw [climb]
  refine Option.bind_congr fun r hr => ?_
  exact if_pos (length_operand hr)

theorem chain_of_not_infix {least : Nat} {left : Expr} {tokens : List Token}
    (h : ∀ token ∈ tokens.head?, token.isInfixOp = false) :
    chain least left tokens = some (left, tokens) := by
  cases tokens with
  | nil => rw [chain]
  | cons token rest => simp [chain, h token rfl]

theorem chain_cons {least : Nat} {left : Expr} {token : Token} {rest : List Token}
    (h : token.isInfixOp) :
    chain least left (token :: rest) =
      (precedence? token.value).bind fun precedence =>
        if least ≤ precedence then
          (climb (precedence + 1) rest).bind fun r =>
            chain least (.binary token.value left r.1) r.2
        else some (left, token :: rest) := by
  rw [chain]
  simp only [h, if_true]
  refine Option.bind_congr fun precedence _ => ite_congr rfl (fun _ => ?_) fun _ => rfl
  refine Option.bind_congr fun r hr => ?_
  exact if_pos (length_climb hr)

/-- Reads what follows an argument. -/
def afterSlot (arg : Expr) : List Token → Option (List Expr × List Token)
  | [] => none
  | token :: rest =>
    if token.separatesArguments then (slots rest).bind fun r => some (arg :: r.1, r.2)
    else if token.closesCall then some ([arg], rest)
    else none

theorem slots_eq (tokens : List Token) :
    slots tokens = (slot tokens).bind fun r => afterSlot r.1 r.2 := by
  rw [slots]
  refine Option.bind_congr fun r hr => ?_
  obtain ⟨arg, rest⟩ := r
  have hlength := length_slot hr
  cases rest with
  | nil => rfl
  | cons token rest =>
    rw [List.length_cons] at hlength
    exact ite_congr rfl (fun _ => if_pos hlength) fun _ => rfl

/-- An argument is no higher than the arguments that it is one of. -/
theorem height_le_afterSlot {arg : Expr} {args : List Expr} {tokens rest : List Token}
    (h : afterSlot arg tokens = some (args, rest)) : arg.height ≤ Expr.heightOfList args := by
  cases tokens with
  | nil => cases h
  | cons token tokens =>
    rw [afterSlot] at h
    by_cases hseparates : token.separatesArguments
    · rw [if_pos hseparates] at h
      obtain ⟨⟨more, rest'⟩, -, hmore⟩ := Option.bind_eq_some_iff.1 h
      cases hmore
      exact Nat.le_max_left _ _
    · rw [if_neg hseparates] at h
      split at h
      · cases h
        exact Nat.le_max_left _ _
      · cases h

theorem arguments_of_close {token : Token} {rest : List Token} (h : token.closesCall) :
    arguments (token :: rest) = some ([], rest) := by
  rw [arguments, if_pos h]

/-- Behind a separator the call may end with an argument that is left out. -/
theorem slots_of_close {token : Token} {rest : List Token} (h : token.closesCall) :
    slots (token :: rest) = some ([.emptyArgument], rest) := by
  rw [slots_eq, slot, if_pos (by simp [h]), Option.bind_some, afterSlot,
    Token.separatesArguments_of_closesCall h, if_neg Bool.false_ne_true, if_pos h]

/-- A call that does not end at once has an argument. -/
theorem arguments_eq_slots {tokens : List Token}
    (h : ∀ token ∈ tokens.head?, token.closesCall = false) : arguments tokens = slots tokens := by
  cases tokens with
  | nil =>
    rw [arguments, slots, slot]
    rfl
  | cons token rest => rw [arguments, h token rfl, if_neg Bool.false_ne_true]

end Grammar

end SheetFormula
