import Mathlib.Tactic.ByContra
import SheetFormula.Proofs.Grammar

/-!
# What the grammar reads

How the grammar reads an expression from the tokens of its parts.

1. `Climbs` says that an expression is read in front of every token that is no part of it, and `Holds`
   that the postfix operators behind it are read with it.
2. There is one statement for each way to put an expression together: `climbs_number`, `climbs_minus`,
   `climbs_binary`, `holds_of_primary`, `holds_percent`, `holds_group` and `holds_call`.
3. A call takes its arguments from `FillsSlots`.
-/

namespace SheetFormula.Grammar

open Token

/-- Whether an expression of this precedence ends in front of a list of tokens. -/
def Loose (level : Nat) (rest : List Token) : Prop :=
  ∀ token ∈ rest.head?, token.isPostfixOp = false ∧ (token.isInfixOp →
    ∃ precedence ≤ level, Operator.binaryPrecedence? token.value = some precedence)

/-- An expression of this precedence is read from its tokens where an expression of the precedence
`least` is read. A negation is read wherever it stands. -/
def Climbs (level : Nat) (e : Expr) (tokens : List Token) : Prop :=
  ∀ least rest, least ≤ level ∨ level = Operator.prefixPrecedence → Loose level rest →
    climb least (tokens ++ rest) = chain least e rest

/-- An expression is read from its tokens with the postfix operators behind them. -/
def Holds (e : Expr) (tokens : List Token) : Prop :=
  ∀ rest, operand (tokens ++ rest) = some (postfixes e rest)

variable {level level' least precedence : Nat} {e left right : Expr} {token sign : Token}
  {tokens tokens' rest : List Token}

/-- No binary operator has the precedence of the prefix operator. -/
theorem binaryPrecedence_bound {op : String}
    (h : Operator.binaryPrecedence? op = some precedence) :
    precedence ≤ 8 ∧ precedence ≠ Operator.prefixPrecedence := by
  have hall : ∀ entry ∈ Operator.binaryTable, entry.2 ≤ 8 ∧ entry.2 ≠ Operator.prefixPrecedence := by
    decide
  exact hall _ (Operator.mem_binaryTable h)

theorem Loose.mono (h : Loose level rest) (hle : level ≤ level') : Loose level' rest := by
  intro token ht
  obtain ⟨hpercent, hbinary⟩ := h token ht
  refine ⟨hpercent, fun hi => ?_⟩
  obtain ⟨precedence, hp, hvalue⟩ := hbinary hi
  exact ⟨precedence, Nat.le_trans hp hle, hvalue⟩

theorem loose_nil : Loose level [] := by
  rintro token ⟨⟩

theorem loose_of_kind (hpercent : token.kind ≠ .postfixOp) (hbinary : token.kind ≠ .infixOp) :
    Loose level (token :: rest) := by
  rintro _ ⟨⟩
  exact ⟨by simp [isPostfixOp, hpercent], fun h => absurd (by simpa [isInfixOp] using h) hbinary⟩

/-- Nothing more is read where only looser operators follow. -/
theorem chain_of_loose (h : Loose level rest) (hl : level < least) :
    chain least e rest = some (e, rest) := by
  cases rest with
  | nil => rw [chain]
  | cons token rest =>
    obtain ⟨-, hbinary⟩ := h token rfl
    by_cases hi : token.isInfixOp
    · obtain ⟨precedence, hp, hvalue⟩ := hbinary hi
      rw [chain_cons hi, precedence?_eq, hvalue, Option.bind_some, if_neg (by omega)]
    · exact chain_of_not_infix fun t ht => by cases ht; simpa using hi

theorem postfixes_of_loose (h : Loose level rest) : postfixes e rest = (e, rest) := by
  cases rest with
  | nil => rfl
  | cons token rest => rw [postfixes, (h token rfl).1, if_neg Bool.false_ne_true]

theorem climbs_of_holds (h : Holds e tokens) : Climbs level e tokens := by
  intro least rest _ hloose
  rw [climb_eq, h, postfixes_of_loose hloose]
  rfl

theorem holds_of_primary (hminus : token.isPrefixOp = false)
    (h : ∀ rest, primary token (tokens ++ rest) = some (e, rest)) : Holds e (token :: tokens) := by
  intro rest
  rw [List.cons_append, operand, hminus, if_neg Bool.false_ne_true, h]
  rfl

/-- A postfix operator behind a number would scale it. -/
theorem climbs_number {value : Number.Binary64} (hnumber : token.isNumber)
    (hvalue : Number.Binary64.ofText? token.value = some value) :
    Climbs level (.number value) [token] := by
  have hminus : token.isPrefixOp = false := by
    simp only [isNumber, Token.is, Bool.and_eq_true, beq_iff_eq] at hnumber
    simp [isPrefixOp, hnumber.1]
  have hread : ∀ {rest}, Loose level rest → number value rest = (.number value, rest) := by
    intro rest hloose
    cases rest with
    | nil => rfl
    | cons next rest => rw [number, (hloose next rfl).1, if_neg Bool.false_ne_true]
  intro least rest _ hloose
  rw [climb_eq, List.singleton_append, operand, hminus, if_neg Bool.false_ne_true, primary,
    if_pos hnumber, NumberLiteral.read?_eq, hvalue, Option.map_some, hread hloose]
  show (some (postfixes _ rest)).bind _ = _
  rw [postfixes_of_loose hloose]
  rfl

theorem holds_percent (h : Holds e tokens) (hsign : sign.isPostfixOp) :
    Holds (.unary sign.value e) (tokens ++ [sign]) := by
  intro rest
  rw [List.append_assoc, h, List.singleton_append, postfixes, if_pos hsign]

theorem climbs_minus (h : Climbs level e tokens) (hlevel : Operator.prefixPrecedence ≤ level)
    (hsign : sign.isPrefixOp) (hvalue : sign.value = "-") :
    Climbs Operator.prefixPrecedence (.unary "-" e) (sign :: tokens) := by
  intro least rest _ hloose
  have hleast : Operator.prefixPrecedence + 1 ≤ level ∨ level = Operator.prefixPrecedence := by
    omega
  rw [climb_eq, List.cons_append, operand, if_pos hsign, if_pos hvalue, negationLevel_eq,
    h _ _ hleast (hloose.mono hlevel), chain_of_loose hloose (Nat.lt_succ_self _), ← hvalue]
  rfl

theorem climbs_binary (hsign : sign.isInfixOp)
    (hvalue : Operator.binaryPrecedence? sign.value = some precedence)
    (hleft : Climbs level left tokens) (hright : Climbs level' right tokens')
    (hlevel : precedence ≤ level) (hlevel' : precedence < level') :
    Climbs precedence (.binary sign.value left right) (tokens ++ sign :: tokens') := by
  intro least rest hleast hloose
  have hnext : Loose level (sign :: (tokens' ++ rest)) := by
    rintro _ ⟨⟩
    have hkind : sign.kind = .infixOp := by simpa [isInfixOp] using hsign
    exact ⟨by simp [isPostfixOp, hkind], fun _ => ⟨precedence, hlevel, hvalue⟩⟩
  have hle : least ≤ precedence := hleast.resolve_right (binaryPrecedence_bound hvalue).2
  rw [List.append_assoc, List.cons_append, hleft _ _ (.inl (Nat.le_trans hle hlevel)) hnext,
    chain_cons hsign, precedence?_eq, hvalue, Option.bind_some, if_pos hle,
    hright _ _ (.inl hlevel') (hloose.mono (Nat.le_of_lt hlevel')),
    chain_of_loose hloose (Nat.lt_succ_self _)]
  rfl

theorem primary_of_group (hopens : sign.opensGroup) :
    primary sign tokens = (climb 0 tokens).bind fun r => closeGroup r.1 r.2 := by
  have hkind : sign.kind = .subexpr ∧ sign.subkind = .start := Token.is_iff.1 hopens
  rw [primary]
  simp [isNumber, isText, isLogical, isRange, Token.is, hkind, hopens]

theorem holds_group {opener close : Token} (h : Climbs level e tokens) (hopens : opener.opensGroup)
    (hcloses : close.closesGroup) : Holds e (opener :: (tokens ++ [close])) := by
  have hkind : opener.kind = .subexpr ∧ close.kind = .subexpr :=
    ⟨(Token.is_iff.1 hopens).1, (Token.is_iff.1 hcloses).1⟩
  refine holds_of_primary (by simp [isPrefixOp, hkind]) fun rest => ?_
  rw [primary_of_group hopens, List.append_assoc, List.singleton_append,
    h 0 _ (.inl (Nat.zero_le _)) (loose_of_kind (by simp [hkind]) (by simp [hkind])),
   chain_of_not_infix]
  · rw [Option.bind_some, closeGroup, if_pos hcloses]
  · rintro _ ⟨⟩
    simp [isInfixOp, hkind]

/-! ### Calls -/

theorem primary_of_call (hopens : sign.opensCall) : primary sign tokens =
    (arguments tokens).bind fun r => some (.call sign.value r.1, r.2) := by
  have hkind : sign.kind = .function ∧ sign.subkind = .start := Token.is_iff.1 hopens
  rw [primary]
  simp [isNumber, isText, isLogical, isRange, opensGroup, Token.is, hkind, hopens]

theorem holds_call {opener close : Token} {args : List Expr} (hopens : opener.opensCall)
    (h : ∀ rest, arguments (tokens ++ close :: rest) = some (args, rest)) :
    Holds (.call opener.value args) (opener :: (tokens ++ [close])) := by
  have hkind : opener.kind = .function := (Token.is_iff.1 hopens).1
  refine holds_of_primary (by simp [isPrefixOp, hkind]) fun rest => ?_
  rw [primary_of_call hopens, List.append_assoc, List.singleton_append, h rest]
  rfl

/-- No expression starts with the end of an argument. -/
theorem head_of_climbs (h : Climbs level e tokens) : ∃ token rest, tokens = token :: rest ∧
    (token.separatesArguments || token.closesCall) = false := by
  have hread : climb 0 tokens = some (e, []) := by
    rw [← List.append_nil tokens, h 0 [] (.inl (Nat.zero_le _)) loose_nil, chain]
  rw [climb_eq] at hread
  cases tokens with
  | nil => simp [operand] at hread
  | cons token rest =>
    refine ⟨token, rest, rfl, ?_⟩
    by_contra hends
    have hnone : operand (token :: rest) = none := by
      rw [Bool.not_eq_false, Bool.or_eq_true] at hends
      have hother : token.isPrefixOp = false ∧ primary token rest = none := by
        rcases hends with hends | hends
        · simp only [separatesArguments, beq_iff_eq] at hends
          rw [primary]
          simp [isPrefixOp, isNumber, isText, isLogical, isRange, opensGroup, opensCall, isError,
            isUnknown, Token.is, hends]
        · have hkind : token.kind = .function ∧ token.subkind = .stop := Token.is_iff.1 hends
          rw [primary]
          simp [isPrefixOp, isNumber, isText, isLogical, isRange, opensGroup, opensCall, isError,
            isUnknown, Token.is, hkind]
      rw [operand, hother.1, if_neg Bool.false_ne_true, hother.2]
      rfl
    rw [hnone] at hread
    cases hread

/-- The tokens of an argument, none if it is left out. -/
def FillsSlot (arg : Expr) (tokens : List Token) : Prop :=
  arg = .emptyArgument ∧ tokens = [] ∨ ∃ level, Climbs level arg tokens

theorem slot_of_fills {arg : Expr} (h : FillsSlot arg tokens)
    (hends : sign.separatesArguments || sign.closesCall) :
    slot (tokens ++ sign :: rest) = some (arg, sign :: rest) := by
  rcases h with ⟨rfl, rfl⟩ | ⟨level, hclimbs⟩
  · rw [List.nil_append, slot, if_pos hends]
  · have hkind : sign.kind = .argument ∨ sign.kind = .function := by
      simp only [separatesArguments, closesCall, Token.is, Bool.or_eq_true, Bool.and_eq_true,
        beq_iff_eq] at hends
      exact hends.imp id And.left
    have hloose : Loose level (sign :: rest) := by
      rcases hkind with h | h <;> exact loose_of_kind (by simp [h]) (by simp [h])
    have hread : climb 0 (tokens ++ sign :: rest) = some (arg, sign :: rest) := by
      rw [hclimbs 0 _ (.inl (Nat.zero_le _)) hloose, chain_of_not_infix]
      rintro _ ⟨⟩
      rcases hkind with h | h <;> simp [isInfixOp, h]
    obtain ⟨token, tokens', rfl, htoken⟩ := head_of_climbs hclimbs
    rw [List.cons_append, slot, htoken, if_neg Bool.false_ne_true]
    exact hread

/-- The tokens of one argument or more, with separators between them. -/
def FillsSlots (args : List Expr) (tokens : List Token) : Prop :=
  ∀ close rest, close.closesCall → slots (tokens ++ close :: rest) = some (args, rest)

theorem fillsSlots_single {arg : Expr} (h : FillsSlot arg tokens) : FillsSlots [arg] tokens := by
  intro close rest hclose
  rw [slots_eq, slot_of_fills h (by simp [hclose]), Option.bind_some, afterSlot,
    Token.separatesArguments_of_closesCall hclose, if_neg Bool.false_ne_true, if_pos hclose]

theorem fillsSlots_cons {arg : Expr} {args : List Expr} (h : FillsSlot arg tokens)
    (hseparator : sign.separatesArguments) (hargs : FillsSlots args tokens') :
    FillsSlots (arg :: args) (tokens ++ sign :: tokens') := by
  intro close rest hclose
  rw [List.append_assoc, List.cons_append, slots_eq, slot_of_fills h (by simp [hseparator]),
    Option.bind_some, afterSlot, if_pos hseparator, hargs close rest hclose]
  rfl

/-- A call has arguments unless its bracket is closed at once. -/
theorem arguments_of_fills {args : List Expr} {close : Token} (h : FillsSlots args tokens)
    (hclose : close.closesCall) (hne : args ≠ [.emptyArgument]) :
    arguments (tokens ++ close :: rest) = some (args, rest) := by
  have hread := h close rest hclose
  have hopen : ∀ first ∈ (tokens ++ close :: rest).head?, first.closesCall = false := by
    intro first hfirst
    by_contra hcloses
    rw [Bool.not_eq_false] at hcloses
    obtain ⟨behind, hbehind⟩ := List.head?_eq_some_iff.1 hfirst
    rw [hbehind, slots_of_close hcloses] at hread
    cases hread
    exact hne rfl
  rw [arguments_eq_slots hopen]
  exact hread

end SheetFormula.Grammar
