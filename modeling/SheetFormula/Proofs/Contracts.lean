import SheetFormula.Proofs.Steps

/-!
# Contracts of the stack parser

What every function of the parser does to the two stacks, and that it stops for no fault of its own.
Main statement: `contracts`, by induction on the fuel for all states at once.

1. `Stands` describes a state above its topmost sentinel: the operators of some frames wait there, and
   above their operands stand finished trees. What is below the sentinel is not looked at, so that it is
   the same in front of a call and behind it.
2. `Past` counts the tokens that are passed between two states. It is what keeps the fuel large enough.
3. An outcome `Keeps` a contract if its result does, and if its error is none of the `mishaps`. Only a
   call without enough fuel may stall.
-/

namespace SheetFormula.Parser

open SheetFormula.Parser.Frame (stacked operands)

/-- The causes that a run is never to stop for. -/
def mishaps : List SyntaxError :=
  [.stalled, .pastEnd, .missingSentinel, .missingOperand, .leftoverOperands]

/-! ## Outcomes -/

/-- Whether an outcome keeps a contract. Without `enough` fuel it may be that the run has stalled. -/
def Keeps {β : Type} (enough : Prop) (Result : β → Prop) : Except SyntaxError β → Prop
  | .ok b => Result b
  | .error cause => cause ∈ mishaps → cause = .stalled ∧ ¬ enough

section

variable {β γ : Type} {enough enough' : Prop} {Result Result' : β → Prop} {Result'' : γ → Prop}
  {outcome : Except SyntaxError β}

theorem Keeps.bind {f : β → Except SyntaxError γ} (h : Keeps enough Result outcome)
    (hf : ∀ b, Result b → Keeps enough Result'' (f b)) : Keeps enough Result'' (outcome >>= f) := by
  cases outcome with
  | ok b => exact hf b h
  | error cause => exact h

theorem Keeps.mono (h : Keeps enough Result outcome) (henough : enough' → enough)
    (hresult : ∀ b, Result b → Result' b) : Keeps enough' Result' outcome := by
  cases outcome with
  | ok b => exact hresult b h
  | error cause => exact fun hmishap => (h hmishap).imp_right fun hnot h => hnot (henough h)

theorem Keeps.result {b : β} (h : Keeps enough Result outcome) (hok : outcome = .ok b) : Result b := by
  rwa [hok] at h

/-- With enough fuel nothing goes wrong. -/
theorem Keeps.not_mishap {cause : SyntaxError} (h : Keeps enough Result outcome) (henough : enough)
    (herror : outcome = .error cause) : cause ∉ mishaps := by
  rw [herror] at h
  exact fun hmishap => (h hmishap).2 henough

/-- An error that may happen keeps every contract. -/
theorem keeps_error {cause : SyntaxError} (h : cause ∉ mishaps) : Keeps enough Result (.error cause) :=
  fun hmishap => absurd hmishap h

end

/-! ## Tokens that are passed -/

/-- Whether at least `n` tokens are passed between two states. -/
structure Past (n : Nat) (s s' : State) : Prop where
  size : s'.cursor.size = s.cursor.size
  position : s.cursor.position + n ≤ s'.cursor.position

section

variable {n m : Nat} {s s' s'' : State}

theorem Past.of_cursor (h : s'.cursor = s.cursor) : Past 0 s s' := ⟨by rw [h], by rw [h]; omega⟩

theorem Past.congr (h : Past n s s') (hcursor : s''.cursor = s'.cursor) : Past n s s'' :=
  ⟨hcursor ▸ h.size, hcursor ▸ h.position⟩

theorem Past.trans (h : Past n s s') (h' : Past m s' s'') : Past (n + m) s s'' where
  size := h'.size.trans h.size
  position := by
    have := h.position
    have := h'.position
    omega

theorem Past.mono (h : Past n s s') (hle : m ≤ n) : Past m s s' where
  size := h.size
  position := by
    have := h.position
    omega

/-- Every token that is passed is read no more. -/
theorem Past.unread (h : Past n s s') : s'.cursor.unread.length + n ≤ s.cursor.unread.length := by
  have hsize := h.size
  have hposition := h.position
  have hbefore := s.cursor.position_add_length
  have hbehind := s'.cursor.position_add_length
  omega

/-- One token is passed where the next state stands behind it. -/
theorem Past.of_unread {token : Token} {rest : List Token} (h : s.cursor.unread = token :: rest)
    (hcursor : s'.cursor = ⟨s.cursor.position + 1, rest, s.cursor.final⟩) : Past 1 s s' where
  size := hcursor ▸ Token.Cursor.size_advance (Token.Cursor.advance_of_unread h)
  position := by rw [hcursor]

end

/-! ## Stacks -/

/-- What stands above the topmost sentinel of a state: frames that wait for their last operands, and
above their operands finished trees, the topmost first. -/
structure Stands (frames : List Frame) (tops : List Expr) (below : List Subtree)
    (waiting : List Waiting) (depth : Nat) (s : State) : Prop where
  final : s.cursor.final.kind = .unspecified
  subtrees : s.subtrees = tops.map .of ++ operands frames below
  waiting : s.waiting = stacked frames waiting
  depth : s.depth = depth

section

variable {limits : Limits} {enough : Prop} {frames : List Frame} {tops args : List Expr} {e : Expr}
  {below : List Subtree} {waiting : List Waiting} {depth arity : Nat} {s s' : State} {token : Token}
  {rest : List Token}

theorem Stands.of_cursor {frames' : List Frame} {tops' : List Expr} {below' : List Subtree}
    {waiting' : List Waiting} {depth' : Nat} (h : Stands frames tops below waiting depth s)
    (hcursor : s'.cursor = s.cursor) (hsubtrees : s'.subtrees = tops'.map .of ++ operands frames' below')
    (hwaiting : s'.waiting = stacked frames' waiting') (hdepth : s'.depth = depth') :
    Stands frames' tops' below' waiting' depth' s' :=
  ⟨hcursor ▸ h.final, hsubtrees, hwaiting, hdepth⟩

/-- Every token of a kind that the parser looks for is another one than the end token. -/
theorem kind_ne_of_is {kind : Token.Kind} {subkind : Token.Subkind} (h : token.is kind subkind)
    (hkind : kind ≠ .unspecified) : token.kind ≠ .unspecified := by
  rwa [(Token.is_iff.1 h).1]

theorem kind_ne_of_kind {kind : Token.Kind} (h : token.kind == kind) (hkind : kind ≠ .unspecified) :
    token.kind ≠ .unspecified := by
  rwa [beq_iff_eq.1 h]

/-- A token that is not the end token is still to read. -/
theorem Stands.unread (h : Stands frames tops below waiting depth s) (hkind : s.peek.kind ≠ .unspecified) :
    ∃ rest, s.cursor.unread = s.peek :: rest := by
  unfold State.peek Token.Cursor.peek at hkind ⊢
  cases hunread : s.cursor.unread with
  | nil =>
    rw [hunread] at hkind
    exact absurd h.final hkind
  | cons token rest => exact ⟨rest, rfl⟩

theorem advance_cons (h : s.cursor.unread = token :: rest) :
    s.advance = .ok { s with cursor := ⟨s.cursor.position + 1, rest, s.cursor.final⟩ } := by
  rw [State.advance, Token.Cursor.advance_of_unread h]
  rfl

theorem Stands.keeps_advance (h : Stands frames tops below waiting depth s)
    (hkind : s.peek.kind ≠ .unspecified) :
    Keeps enough (fun s' => Stands frames tops below waiting depth s' ∧ Past 1 s s') s.advance := by
  obtain ⟨rest, hunread⟩ := h.unread hkind
  rw [advance_cons hunread]
  exact ⟨⟨h.final, h.subtrees, h.waiting, h.depth⟩, .of_unread hunread rfl⟩

theorem Stands.addLeaf (h : Stands frames tops below waiting depth s) (hleaf : e.isLeaf) :
    Stands frames (e :: tops) below waiting depth (s.addLeaf e) where
  final := h.final
  subtrees := by
    rw [State.addLeaf, h.subtrees, List.map_cons, List.cons_append, Subtree.of,
      Expr.height_of_isLeaf hleaf]
  waiting := h.waiting
  depth := h.depth

/-- A tree with its own height is put on the stack, or it is too high. -/
theorem keeps_stack (subtrees : List Subtree) :
    Keeps enough (· = .of e :: subtrees) (stack limits e e.height subtrees) := by
  unfold stack
  split
  · exact keeps_error (by simp [mishaps])
  · rfl

/-- Operators are applied as long as they pass a test, which the sentinel does not. -/
theorem Stands.keeps_reduceWhile (h : Stands frames [e] below waiting depth s) (test : Waiting → Bool)
    (hsentinel : test .sentinel = false) :
    Keeps enough (fun s' => (∃ frames' e', (∀ frame ∈ frames'.head?, test (.operator frame.operator) = false) ∧
        Stands frames' [e'] below waiting depth s') ∧ s'.cursor = s.cursor) (s.reduceWhile limits test) := by
  have hstop : ∀ frame ∈ frames, test (.operator frame.operator) → ∀ e,
      Grammar.chain frame.least e [] = some (e, []) := fun frame _ _ e =>
    Grammar.chain_of_not_infix fun _ h => by cases h
  rw [State.reduceWhile, h.subtrees, h.waiting]
  rcases applyWhile_frames limits test below waiting hsentinel frames e hstop with
    ⟨frames', e', -, hhead, hok, -⟩ | ⟨herror, -⟩
  · rw [List.map_singleton, List.singleton_append, hok]
    exact ⟨⟨frames', e', hhead, h.of_cursor rfl rfl rfl h.depth⟩, rfl⟩
  · rw [List.map_singleton, List.singleton_append, herror]
    exact keeps_error (by simp [mishaps])

/-- A binary operator takes the tree in front of it as its left operand. -/
theorem Stands.keeps_wait_binary {op : Operator} (harity : op.arity = .binary)
    (h : Stands frames [e] below waiting depth s) :
    Keeps enough (fun s' => (∃ frames', Stands frames' [] below waiting depth s') ∧ s'.cursor = s.cursor)
      (s.wait limits op) := by
  unfold State.wait
  refine (h.keeps_reduceWhile (·.precedes op) rfl).bind ?_
  rintro s' ⟨⟨frames', e', -, hs'⟩, hcursor⟩
  obtain ⟨symbol, precedence, arity⟩ := op
  cases harity
  exact ⟨⟨.binary symbol precedence e' :: frames',
    hs'.of_cursor rfl hs'.subtrees (congrArg _ hs'.waiting) hs'.depth⟩, hcursor⟩

/-- A minus sign applies nothing. -/
theorem Stands.keeps_wait_minus (h : Stands frames [] below waiting depth s) :
    Keeps enough (fun s' => Stands (.minus :: frames) [] below waiting depth s' ∧ s'.cursor = s.cursor)
      (s.wait limits ⟨"-", Operator.prefixPrecedence, .unary⟩) := by
  have hnone : ∀ top : Waiting, top.precedes ⟨"-", Operator.prefixPrecedence, .unary⟩ = false := by
    rintro (_ | _) <;> rfl
  rw [State.wait, State.reduceWhile, applyWhile_of_false _ hnone]
  exact ⟨h.of_cursor rfl h.subtrees (congrArg _ h.waiting) h.depth, rfl⟩

theorem Stands.keeps_reduceAll (h : Stands frames [e] below waiting depth s) :
    Keeps enough (fun s' => (∃ e', Stands [] [e'] below waiting depth s') ∧ s'.cursor = s.cursor)
      (s.reduceAll limits) := by
  refine (h.keeps_reduceWhile (· != .sentinel) rfl).mono id ?_
  rintro s' ⟨⟨frames', e', hhead, hs'⟩, hcursor⟩
  obtain rfl : frames' = [] := by
    cases frames' with
    | nil => rfl
    | cons frame frames' => exact absurd (hhead frame rfl) (by simp)
  exact ⟨⟨e', hs'⟩, hcursor⟩

/-- An open bracket hides what waits in front of it. -/
theorem Stands.keeps_enter (h : Stands frames [] below waiting depth s) :
    Keeps enough (fun s' => Stands [] [] (operands frames below) (stacked frames waiting) (depth + 1) s' ∧
        s'.cursor = s.cursor) (s.enter limits) := by
  unfold State.enter
  split
  · exact keeps_error (by simp [mishaps])
  · exact ⟨h.of_cursor rfl h.subtrees (congrArg _ h.waiting) (congrArg (· + 1) h.depth), rfl⟩

theorem Stands.keeps_leave (h : Stands [] tops (operands frames below) (stacked frames waiting) (depth + 1) s) :
    Keeps enough (fun s' => Stands frames tops below waiting depth s' ∧ s'.cursor = s.cursor) s.leave := by
  unfold State.leave
  rw [h.waiting]
  refine ⟨h.of_cursor rfl h.subtrees rfl ?_, rfl⟩
  rw [h.depth, Nat.add_sub_cancel]

/-- A binary operator waits, and its right operand comes next. -/
theorem Stands.keeps_infixOp {op : Operator} (h : Stands frames [e] below waiting depth s)
    (hinfixOp : s.peek.isInfixOp) (harity : op.arity = .binary) :
    Keeps enough (fun s' => (∃ frames', Stands frames' [] below waiting depth s') ∧ Past 1 s s')
      (s.wait limits op >>= State.advance) := by
  have hkind := kind_ne_of_kind hinfixOp (by decide)
  refine (h.keeps_wait_binary harity).bind ?_
  rintro s₁ ⟨⟨frames', hs₁⟩, hcursor⟩
  have hkind₁ : s₁.peek.kind ≠ .unspecified := by rwa [State.peek, hcursor]
  refine (hs₁.keeps_advance hkind₁).mono id ?_
  rintro s₂ ⟨hs₂, hpast⟩
  exact ⟨⟨frames', hs₂⟩, (Past.of_cursor hcursor).trans hpast⟩

/-- A minus sign waits, and its operand comes next. -/
theorem Stands.keeps_prefixOp (h : Stands frames [] below waiting depth s) (hprefixOp : s.peek.isPrefixOp) :
    Keeps enough (fun s' => Stands (.minus :: frames) [] below waiting depth s' ∧ Past 1 s s')
      (s.wait limits ⟨"-", Operator.prefixPrecedence, .unary⟩ >>= State.advance) := by
  have hkind := kind_ne_of_kind hprefixOp (by decide)
  refine h.keeps_wait_minus.bind ?_
  rintro s₁ ⟨hs₁, hcursor⟩
  have hkind₁ : s₁.peek.kind ≠ .unspecified := by rwa [State.peek, hcursor]
  refine (hs₁.keeps_advance hkind₁).mono id ?_
  rintro s₂ ⟨hs₂, hpast⟩
  exact ⟨hs₂, (Past.of_cursor hcursor).trans hpast⟩

/-- Behind an opening bracket nothing of what is in front of it is in sight. -/
theorem Stands.keeps_open (h : Stands frames [] below waiting depth s)
    (hkind : s.peek.kind ≠ .unspecified) :
    Keeps enough (fun s' => Stands [] [] (operands frames below) (stacked frames waiting) (depth + 1) s' ∧
        Past 1 s s') (s.advance >>= State.enter limits) := by
  refine (h.keeps_advance hkind).bind ?_
  rintro s₁ ⟨hs₁, hpast⟩
  refine hs₁.keeps_enter.mono id ?_
  rintro s₂ ⟨hs₂, hcursor⟩
  exact ⟨hs₂, hpast.congr hcursor⟩

/-! ## Operands without brackets -/

theorem Stands.keeps_number (h : Stands frames [] below waiting depth s) (token : Token) :
    Keeps enough (fun s' => (∃ e, Stands frames [e] below waiting depth s') ∧ Past 0 s s')
      (number token s) := by
  unfold Parser.number
  split
  · exact keeps_error (by simp [mishaps])
  · rename_i value _
    split
    · rename_i hpercent
      have hkind := kind_ne_of_kind hpercent (by decide)
      refine (h.keeps_advance hkind).bind ?_
      rintro s' ⟨hs', hpast⟩
      exact ⟨⟨_, hs'.addLeaf rfl⟩, (hpast.mono (Nat.zero_le _)).congr rfl⟩
    · exact ⟨⟨_, h.addLeaf rfl⟩, .of_cursor rfl⟩

theorem kind_of_isTerminal (h : token.isTerminal) : token.kind = .operand := by
  simp only [Token.isTerminal, Token.isNumber, Token.isText, Token.isLogical, Token.isRange,
    Bool.or_eq_true, Token.is_iff] at h
  tauto

theorem Stands.keeps_terminal (h : Stands frames [] below waiting depth s) (hterminal : s.peek.isTerminal) :
    Keeps enough (fun s' => (∃ e, Stands frames [e] below waiting depth s') ∧ Past 1 s s')
      (terminal s) := by
  have hkind : s.peek.kind ≠ .unspecified := by
    rw [kind_of_isTerminal hterminal]
    decide
  unfold Parser.terminal
  refine (h.keeps_advance hkind).bind ?_
  rintro s' ⟨hs', hpast⟩
  have hleaf : ∀ e : Expr, e.isLeaf → Keeps enough
      (fun s' => (∃ e, Stands frames [e] below waiting depth s') ∧ Past 1 s s')
      (.ok (s'.addLeaf e)) := fun e he => ⟨⟨e, hs'.addLeaf he⟩, hpast.congr rfl⟩
  split
  · refine (hs'.keeps_number s.peek).mono id ?_
    rintro s'' ⟨hs'', hpast'⟩
    exact ⟨hs'', hpast.trans hpast'⟩
  split
  · exact hleaf _ rfl
  split
  · exact hleaf _ rfl
  · exact hleaf _ (Expr.isLeaf_reference _)

theorem Stands.keeps_applyPostfix (h : Stands frames [e] below waiting depth s)
    (hunread : s.cursor.unread = token :: rest) :
    Keeps enough (fun s' => (∃ e', Stands frames [e'] below waiting depth s') ∧ Past 1 s s' ∧
      s'.cursor.unread = rest) (applyPostfix limits s token) := by
  unfold Parser.applyPostfix
  rw [advance_cons hunread, ok_bind, State.pop, h.subtrees]
  show Keeps enough _ (State.addTree limits _ (.unary token.value e) (e.height + 1))
  rw [State.addTree]
  refine (keeps_stack (e := .unary token.value e) (operands frames below)).bind ?_
  rintro _ rfl
  exact ⟨⟨_, h.final, rfl, h.waiting, h.depth⟩, .of_unread hunread rfl, rfl⟩

theorem Stands.keeps_postfixes {tokens : List Token} (h : Stands frames [e] below waiting depth s)
    (hunread : s.cursor.unread = tokens) :
    Keeps enough (fun s' => (∃ e', Stands frames [e'] below waiting depth s') ∧ Past 0 s s')
      ((tokens.takeWhile Token.isPostfixOp).foldlM (applyPostfix limits) s) := by
  induction tokens generalizing s e with
  | nil => exact ⟨⟨e, h⟩, .of_cursor rfl⟩
  | cons token rest ih =>
    rw [List.takeWhile_cons]
    split
    · rw [List.foldlM_cons]
      refine (h.keeps_applyPostfix hunread).bind ?_
      rintro s' ⟨⟨e', hs'⟩, hpast, hrest⟩
      refine (ih hs' hrest).mono id ?_
      rintro s'' ⟨hs'', hpast'⟩
      exact ⟨hs'', (hpast.trans hpast').mono (Nat.zero_le _)⟩
    · exact ⟨⟨e, h⟩, .of_cursor rfl⟩

theorem Stands.keeps_trailing (h : Stands frames [e] below waiting depth s) :
    Keeps enough (fun s' => (∃ e', Stands frames [e'] below waiting depth s') ∧ Past 0 s s')
      (trailing limits s) :=
  h.keeps_postfixes rfl

/-! ## Operands -/

theorem Stands.popMany (h : Stands [] args below waiting depth s) (harity : args.length = arity) :
    s.popMany arity = .ok (args.reverse.map .of, { s with subtrees := below }) := by
  have hpopped := popMany_args s.cursor args.reverse below s.waiting s.depth
  rw [List.map_reverse, List.reverse_reverse, List.length_reverse, harity] at hpopped
  obtain ⟨cursor, subtrees, waiting', depth'⟩ := s
  obtain rfl : subtrees = args.map .of ++ below := h.subtrees
  rw [List.map_reverse]
  exact hpopped

/-- A call is made of as many trees as there are arguments. -/
theorem Stands.keeps_finishCall {name : String}
    (h : Stands [] args (operands frames below) (stacked frames waiting) (depth + 1) s)
    (harity : args.length = arity) (hclose : s.peek.closesCall) :
    Keeps enough (fun s' => (∃ e, Stands frames [e] below waiting depth s') ∧ Past 1 s s')
      (finishCall limits name arity s) := by
  have hpopped : Stands [] [] (operands frames below) (stacked frames waiting) (depth + 1)
      { s with subtrees := operands frames below } := h.of_cursor rfl rfl h.waiting h.depth
  have hexprs : (args.reverse.map Subtree.of).map (·.expr) = args.reverse := by
    rw [List.map_map]
    exact List.map_id'' (fun _ => rfl) args.reverse
  rw [finishCall, h.popMany harity, ok_bind]
  refine hpopped.keeps_leave.bind ?_
  rintro s₁ ⟨hs₁, hcursor₁⟩
  dsimp only
  rw [hexprs, height_args, State.addTree, bind_assoc]
  have hstack : Keeps enough (· = .of (.call name args.reverse) :: s₁.subtrees)
      (stack limits (.call name args.reverse) (Expr.call name args.reverse).height s₁.subtrees) :=
    keeps_stack s₁.subtrees
  rw [Expr.height] at hstack
  refine hstack.bind ?_
  rintro _ rfl
  have hadded : Stands frames [.call name args.reverse] below waiting depth
      { s₁ with subtrees := .of (.call name args.reverse) :: s₁.subtrees } :=
    hs₁.of_cursor rfl (congrArg _ hs₁.subtrees) hs₁.waiting hs₁.depth
  have hkind : (State.peek { s₁ with subtrees := .of (.call name args.reverse) :: s₁.subtrees }).kind ≠
      .unspecified := by
    unfold State.peek
    rw [hcursor₁]
    exact kind_ne_of_is hclose (by decide)
  refine (hadded.keeps_advance hkind).mono id ?_
  rintro s' ⟨hs', hpast⟩
  exact ⟨⟨_, hs'⟩, hpast.size.trans (congrArg Token.Cursor.size hcursor₁),
    (congrArg (·.position + 1) hcursor₁).symm.le.trans hpast.position⟩

end

/-! ## Expressions -/

/-- The contracts of the functions that read on this fuel. -/
structure Contracts (limits : Limits) (fuel : Nat) : Prop where
  operand : ∀ {frames below waiting depth s}, Stands frames [] below waiting depth s →
    Keeps (3 * s.cursor.unread.length < fuel)
      (fun s' => (∃ frames' e, Stands frames' [e] below waiting depth s') ∧ Past 1 s s')
      (operand limits fuel s)
  chain : ∀ {frames e below waiting depth s}, Stands frames [e] below waiting depth s →
    Keeps (3 * s.cursor.unread.length < fuel)
      (fun s' => (∃ e', Stands [] [e'] below waiting depth s') ∧ Past 0 s s') (chain limits fuel s)
  expression : ∀ {below waiting depth s}, Stands [] [] below waiting depth s →
    Keeps (3 * s.cursor.unread.length + 1 < fuel)
      (fun s' => (∃ e, Stands [] [e] below waiting depth s') ∧ Past 1 s s') (expression limits fuel s)
  arguments : ∀ {args below waiting depth s arity} (separated : Bool), args.length = arity →
    Stands [] args below waiting depth s →
    Keeps (3 * s.cursor.unread.length + 2 < fuel)
      (fun r => (∃ args', args'.length = r.1 ∧ Stands [] args' below waiting depth r.2) ∧
        Past 0 s r.2 ∧ r.2.peek.closesCall)
      (arguments limits fuel separated arity s)

section

variable {limits : Limits} {fuel : Nat} {frames : List Frame} {args : List Expr} {e : Expr}
  {below : List Subtree} {waiting : List Waiting} {depth arity : Nat} {s : State}

/-- Without fuel every call has stalled. -/
theorem contracts_zero : Contracts limits 0 where
  operand _ := fun _ => ⟨rfl, Nat.not_lt_zero _⟩
  chain _ := fun _ => ⟨rfl, Nat.not_lt_zero _⟩
  expression _ := fun _ => ⟨rfl, Nat.not_lt_zero _⟩
  arguments _ _ _ := fun _ => ⟨rfl, Nat.not_lt_zero _⟩

theorem binary_arity {symbol : String} {op : Operator} (h : Operator.binary symbol = .ok op) :
    op.arity = .binary := by
  unfold Operator.binary at h
  split at h <;> cases h
  rfl

theorem unary_eq {symbol : String} {op : Operator} (h : Operator.unary symbol = .ok op) :
    op = ⟨"-", Operator.prefixPrecedence, .unary⟩ := by
  unfold Operator.unary at h
  split_ifs at h with hsymbol
  cases h
  rw [hsymbol]

/-- An operator that the table does not know is a mistake of the formula. -/
theorem keeps_lookup {enough : Prop} {symbol : String} :
    Keeps enough (Operator.binary symbol = .ok ·) (Operator.binary symbol) ∧
      Keeps enough (Operator.unary symbol = .ok ·) (Operator.unary symbol) := by
  unfold Operator.binary Operator.unary
  constructor
  · split
    · rfl
    · exact keeps_error (by simp [mishaps])
  · split
    · rfl
    · exact keeps_error (by simp [mishaps])

theorem keeps_group (h : Contracts limits fuel) (hs : Stands frames [] below waiting depth s)
    (hopens : s.peek.opensGroup) :
    Keeps (3 * s.cursor.unread.length < fuel + 1)
      (fun s' => (∃ e, Stands frames [e] below waiting depth s') ∧ Past 1 s s')
      (do
        let s ← s.advance
        let s ← expression limits fuel (← s.enter limits)
        let s ← s.leave
        if s.peek.closesGroup then s.advance else .error .invalid) := by
  have hkind := kind_ne_of_is hopens (by decide)
  rw [← bind_assoc]
  refine (hs.keeps_open hkind).bind ?_
  rintro s₂ ⟨hs₂, hpast₂⟩
  have hunread := hpast₂.unread
  refine ((h.expression hs₂).mono (by omega) fun _ hs₃ => hs₃).bind ?_
  rintro s₃ ⟨⟨e, hs₃⟩, hpast₃⟩
  refine hs₃.keeps_leave.bind ?_
  rintro s₄ ⟨hs₄, hcursor₄⟩
  have hpast₄ : Past 1 s s₄ := ((hpast₂.trans hpast₃).congr hcursor₄).mono (by omega)
  split
  · rename_i hcloses
    have hkind₄ := kind_ne_of_is hcloses (by decide)
    refine (hs₄.keeps_advance hkind₄).mono id ?_
    rintro s₅ ⟨hs₅, hpast₅⟩
    exact ⟨⟨e, hs₅⟩, (hpast₄.trans hpast₅).mono (by omega)⟩
  · exact keeps_error (by simp [mishaps])

theorem keeps_call (h : Contracts limits fuel) (hs : Stands frames [] below waiting depth s)
    (hopens : s.peek.opensCall) (name : String) :
    Keeps (3 * s.cursor.unread.length < fuel + 1)
      (fun s' => (∃ e, Stands frames [e] below waiting depth s') ∧ Past 1 s s')
      (do
        let s ← s.advance
        let (arity, s) ← arguments limits fuel false 0 (← s.enter limits)
        finishCall limits name arity s) := by
  have hkind := kind_ne_of_is hopens (by decide)
  rw [← bind_assoc]
  refine (hs.keeps_open hkind).bind ?_
  rintro s₂ ⟨hs₂, hpast₂⟩
  have hunread := hpast₂.unread
  refine ((h.arguments false List.length_nil hs₂).mono (by omega) fun _ hs₃ => hs₃).bind ?_
  rintro ⟨arity, s₃⟩ ⟨⟨args, harity, hs₃⟩, hpast₃, hclose⟩
  refine (hs₃.keeps_finishCall harity hclose).mono id ?_
  rintro s₄ ⟨hs₄, hpast₄⟩
  exact ⟨hs₄, ((hpast₂.trans hpast₃).trans hpast₄).mono (by omega)⟩

theorem keeps_primary (h : Contracts limits fuel) (hs : Stands frames [] below waiting depth s) :
    Keeps (3 * s.cursor.unread.length < fuel + 1)
      (fun s' => (∃ e, Stands frames [e] below waiting depth s') ∧ Past 1 s s')
      (primary limits fuel s.peek s) := by
  have hleaf : ∀ e : Expr, e.isLeaf → s.peek.kind ≠ .unspecified →
      Keeps (3 * s.cursor.unread.length < fuel + 1)
        (fun s' => (∃ e, Stands frames [e] below waiting depth s') ∧ Past 1 s s')
        (s.advance >>= fun s' => pure (s'.addLeaf e)) := by
    intro e he hkind
    refine (hs.keeps_advance hkind).bind ?_
    rintro s' ⟨hs', hpast⟩
    exact ⟨⟨e, hs'.addLeaf he⟩, hpast.congr rfl⟩
  unfold primary
  split_ifs with hterminal hgroup hcall herror hunknown
  · exact hs.keeps_terminal hterminal
  · exact keeps_group h hs hgroup
  · exact keeps_call h hs hcall _
  · exact hleaf _ rfl (kind_ne_of_is herror (by decide))
  · exact hleaf _ rfl (kind_ne_of_kind hunknown (by decide))
  · exact keeps_error (by simp [mishaps])

theorem keeps_operand (h : Contracts limits fuel) (hs : Stands frames [] below waiting depth s) :
    Keeps (3 * s.cursor.unread.length < fuel + 1)
      (fun s' => (∃ frames' e, Stands frames' [e] below waiting depth s') ∧ Past 1 s s')
      (operand limits (fuel + 1) s) := by
  by_cases hprefixOp : s.peek.isPrefixOp
  · rw [operand]
    simp only [hprefixOp, if_true]
    refine keeps_lookup.2.bind fun op hop => ?_
    rw [unary_eq hop, ← bind_assoc]
    refine (hs.keeps_prefixOp hprefixOp).bind ?_
    rintro s₂ ⟨hs₂, hpast⟩
    have hunread := hpast.unread
    refine (h.operand hs₂).mono (by omega) ?_
    rintro s₃ ⟨hs₃, hpast₃⟩
    exact ⟨hs₃, (hpast.trans hpast₃).mono (by omega)⟩
  · rw [operand_eq _ _ (by simpa using hprefixOp)]
    refine (keeps_primary h hs).bind ?_
    rintro s₁ ⟨⟨e, hs₁⟩, hpast₁⟩
    refine hs₁.keeps_trailing.mono id ?_
    rintro s₂ ⟨⟨e', hs₂⟩, hpast₂⟩
    exact ⟨⟨frames, e', hs₂⟩, hpast₁.trans hpast₂⟩

theorem keeps_chain (h : Contracts limits fuel) (hs : Stands frames [e] below waiting depth s) :
    Keeps (3 * s.cursor.unread.length < fuel + 1)
      (fun s' => (∃ e', Stands [] [e'] below waiting depth s') ∧ Past 0 s s')
      (chain limits (fuel + 1) s) := by
  rw [chain]
  split
  · rename_i hinfixOp
    refine keeps_lookup.1.bind fun op hop => ?_
    rw [← bind_assoc]
    refine (hs.keeps_infixOp hinfixOp (binary_arity hop)).bind ?_
    rintro s₂ ⟨⟨frames', hs₂⟩, hpast⟩
    have hunread := hpast.unread
    refine ((h.operand hs₂).mono (by omega) fun _ hs₃ => hs₃).bind ?_
    rintro s₃ ⟨⟨frames'', e', hs₃⟩, hpast₃⟩
    have hunread₃ := hpast₃.unread
    refine (h.chain hs₃).mono (by omega) ?_
    rintro s₄ ⟨hs₄, hpast₄⟩
    exact ⟨hs₄, ((hpast.trans hpast₃).trans hpast₄).mono (by omega)⟩
  · refine hs.keeps_reduceAll.mono id ?_
    rintro s' ⟨hs', hcursor⟩
    exact ⟨hs', .of_cursor hcursor⟩

theorem keeps_expression (h : Contracts limits fuel) (hs : Stands [] [] below waiting depth s) :
    Keeps (3 * s.cursor.unread.length + 1 < fuel + 1)
      (fun s' => (∃ e, Stands [] [e] below waiting depth s') ∧ Past 1 s s')
      (expression limits (fuel + 1) s) := by
  rw [expression]
  refine ((h.operand hs).mono (by omega) fun _ hs₁ => hs₁).bind ?_
  rintro s₁ ⟨⟨frames, e, hs₁⟩, hpast₁⟩
  have hunread := hpast₁.unread
  refine (h.chain hs₁).mono (by omega) ?_
  rintro s₂ ⟨hs₂, hpast₂⟩
  exact ⟨hs₂, hpast₁.trans hpast₂⟩

/-- One more argument stands on the stack behind a slot, which may be empty. -/
theorem keeps_slot (h : Contracts limits fuel) (hs : Stands [] args below waiting depth s) :
    Keeps (3 * s.cursor.unread.length + 1 < fuel)
      (fun s' => (∃ arg, Stands [] (arg :: args) below waiting depth s') ∧ Past 0 s s')
      (if s.peek.separatesArguments then pure (s.addLeaf .emptyArgument) else expression limits fuel s) := by
  split
  · exact ⟨⟨_, hs.addLeaf rfl⟩, .of_cursor rfl⟩
  · have hbelow : Stands [] [] (args.map .of ++ below) waiting depth s :=
      ⟨hs.final, hs.subtrees, hs.waiting, hs.depth⟩
    refine (h.expression hbelow).mono id ?_
    rintro s' ⟨⟨arg, hs'⟩, hpast⟩
    refine ⟨⟨arg, ?_⟩, hpast.mono (by omega)⟩
    exact ⟨hs'.final, hs'.subtrees, hs'.waiting, hs'.depth⟩

theorem keeps_arguments (h : Contracts limits fuel) (separated : Bool)
    (harity : args.length = arity) (hs : Stands [] args below waiting depth s) :
    Keeps (3 * s.cursor.unread.length + 2 < fuel + 1)
      (fun r => (∃ args', args'.length = r.1 ∧ Stands [] args' below waiting depth r.2) ∧
        Past 0 s r.2 ∧ r.2.peek.closesCall)
      (arguments limits (fuel + 1) separated arity s) := by
  rw [arguments]
  split
  · rename_i hclose
    split
    · exact ⟨⟨.emptyArgument :: args, congrArg (· + 1) harity, hs.addLeaf rfl⟩, .of_cursor rfl, hclose⟩
    · exact ⟨⟨args, harity, hs⟩, .of_cursor rfl, hclose⟩
  · rw [← ite_bind]
    refine ((keeps_slot h hs).mono (by omega) fun _ hs₁ => hs₁).bind ?_
    rintro s₁ ⟨⟨arg, hs₁⟩, hpast₁⟩
    dsimp only
    split
    · rename_i hseparates
      have hkind := kind_ne_of_kind hseparates (by decide)
      refine (hs₁.keeps_advance hkind).bind ?_
      rintro s₂ ⟨hs₂, hpast₂⟩
      have hpast := hpast₁.trans hpast₂
      have hunread := hpast.unread
      refine (h.arguments true (congrArg (· + 1) harity) hs₂).mono (by omega) ?_
      rintro r ⟨hr, hpast₃, hclose⟩
      exact ⟨hr, (hpast.trans hpast₃).mono (by omega), hclose⟩
    split
    · rename_i hclose
      exact ⟨⟨arg :: args, congrArg (· + 1) harity, hs₁⟩, hpast₁, hclose⟩
    · exact keeps_error (by simp [mishaps])

theorem contracts (limits : Limits) (fuel : Nat) : Contracts limits fuel := by
  induction fuel with
  | zero => exact contracts_zero
  | succ fuel ih => exact ⟨keeps_operand ih, keeps_chain ih, keeps_expression ih, keeps_arguments ih⟩

end

end SheetFormula.Parser
