import SheetFormula.Expr.Parser
import SheetFormula.Proofs.Grammar

/-!
# The stack parser reads the grammar

The parser keeps operators on a stack where the grammar keeps calls waiting. Main statement:
`toOption_parse`, the parser finds the expression of the grammar and no other.

1. A `Frame` is an operator that waits for its last operand; `resume` is what the grammar still has
   to do for a stack of them.
2. `Agrees` compares an outcome of the parser with what the grammar reads: the same result, no
   result on either side, or a limit that is in the way. A tree that is too high for the parser is
   part of the tree of the grammar, so the latter is too high as well.
3. There is one lemma for each thing that the parser can do next, from `infix_agrees` to
   `afterSlot_agrees`. `simulates` puts them together and follows the parser token by token: for every
   fuel that is large enough, every stack below, and every stack of frames.
-/

namespace SheetFormula.Parser

theorem ok_bind {ε α β : Type} (a : α) (f : α → Except ε β) : (Except.ok a >>= f) = f a := rfl

/-- What follows a choice follows either branch. -/
theorem ite_bind {ε α β : Type} (b : Bool) (x y : Except ε α) (f : α → Except ε β) :
    ((if b then x else y) >>= f) = if b then x >>= f else y >>= f := by
  cases b <;> rfl

/-- A finished tree with the height that it has. -/
def Subtree.of (e : Expr) : Subtree := ⟨e, e.height⟩

/-! ## Outcomes that agree with the grammar -/

/-- Whether the outcome of a run that can open at most `reach` brackets agrees with what the grammar
reads. -/
def Agrees {α β : Type} (limits : Limits) (reach : Nat) (height : α → Nat)
    (Result : β → α → List Token → Prop) (read : Option (α × List Token)) :
    Except SyntaxError β → Prop
  | .ok b => ∃ a rest, read = some (a, rest) ∧ Result b a rest
  | .error (.tooHigh limit) =>
    limit = limits.height ∧ ∀ a rest, read = some (a, rest) → limits.height < height a
  | .error (.tooDeep limit) => limit = limits.depth ∧ limits.depth < reach
  | .error _ => read = none

section Agrees

variable {α β γ δ : Type} {limits : Limits} {reach reach' : Nat} {height : α → Nat}
  {height' : γ → Nat} {Result : β → α → List Token → Prop} {Result' : δ → γ → List Token → Prop}
  {read : Option (α × List Token)} {outcome : Except SyntaxError β}

theorem Agrees.mono (h : Agrees limits reach height Result read outcome) (hr : reach ≤ reach') :
    Agrees limits reach' height Result read outcome := by
  unfold Agrees at h ⊢
  split
  · exact h
  · exact h
  · exact ⟨h.1, Nat.lt_of_lt_of_le h.2 hr⟩
  · split at h <;> first | exact h | simp_all

/-- Two steps that agree, one behind the other. The second one reads what the first one read into
something no lower. -/
theorem Agrees.bind (next : α → List Token → Option (γ × List Token))
    (f : β → Except SyntaxError δ) (h : Agrees limits reach height Result read outcome)
    (hh : ∀ a rest c rest', read = some (a, rest) → next a rest = some (c, rest') →
      height a ≤ height' c)
    (hf : ∀ b a rest, read = some (a, rest) → Result b a rest →
      Agrees limits reach height' Result' (next a rest) (f b)) :
    Agrees limits reach height' Result' (read.bind fun r => next r.1 r.2) (outcome >>= f) := by
  cases outcome with
  | ok b =>
    obtain ⟨a, rest, rfl, hr⟩ := h
    exact hf b a rest rfl hr
  | error cause =>
    cases cause with
    | tooHigh limit =>
      obtain ⟨rfl, h⟩ := h
      refine ⟨rfl, fun c rest' hc => ?_⟩
      obtain ⟨⟨a, rest⟩, ha, hc⟩ := Option.bind_eq_some_iff.1 hc
      exact Nat.lt_of_lt_of_le (h a rest ha) (hh a rest c rest' ha hc)
    | tooDeep limit => exact h
    | _ =>
      rw [show read = none from h]
      exact rfl

end Agrees

/-! ## Frames -/

/-- An operator that waits for its last operand. -/
inductive Frame where
  | binary (symbol : String) (precedence : Nat) (left : Expr)
  | minus

namespace Frame

/-- The operator as it stands on the stack. -/
def operator : Frame → Operator
  | binary symbol precedence _ => ⟨symbol, precedence, .binary⟩
  | minus => ⟨"-", Operator.prefixPrecedence, .unary⟩

/-- The least precedence of an operator that goes into the last operand. -/
def least (frame : Frame) : Nat := frame.operator.precedence + 1

/-- The tree that the last operand completes. -/
def close : Frame → Expr → Expr
  | binary symbol _ left, e => .binary symbol left e
  | minus, e => .unary "-" e

/-- The waiting operators of a stack of frames above a sentinel. -/
def stacked (frames : List Frame) (waiting : List Waiting) : List Waiting :=
  frames.map (fun frame => .operator frame.operator) ++ .sentinel :: waiting

/-- The operands of a stack of frames. -/
def operands : List Frame → List Subtree → List Subtree
  | [], below => below
  | binary _ _ left :: frames, below => .of left :: operands frames below
  | minus :: frames, below => operands frames below

theorem height_close (frame : Frame) (e : Expr) : e.height ≤ (frame.close e).height := by
  cases frame <;> simp only [close, Expr.height] <;> omega

end Frame

open SheetFormula.Parser.Frame (stacked operands)

/-- What the grammar reads on for a stack of frames, behind the operand of the topmost one. -/
def resume : List Frame → Expr → List Token → Option (Expr × List Token)
  | [], e, tokens => Grammar.chain 0 e tokens
  | frame :: frames, e, tokens =>
    (Grammar.chain frame.least e tokens).bind fun r => resume frames (frame.close r.1) r.2

theorem height_resume {frames : List Frame} {e e' : Expr} {tokens rest : List Token}
    (h : resume frames e tokens = some (e', rest)) : e.height ≤ e'.height := by
  induction frames generalizing e tokens with
  | nil => exact Grammar.height_le_chain h
  | cons frame frames ih =>
    obtain ⟨⟨left, rest'⟩, hc, hr⟩ := Option.bind_eq_some_iff.1 h
    have := Grammar.height_le_chain hc
    have := frame.height_close left
    have : (frame.close left).height ≤ e'.height := ih hr
    omega

/-- A frame whose operand ends here is closed. -/
theorem resume_cons_of_stop {frame : Frame} {frames : List Frame} {e : Expr} {tokens : List Token}
    (h : Grammar.chain frame.least e tokens = some (e, tokens)) :
    resume (frame :: frames) e tokens = resume frames (frame.close e) tokens := by
  rw [resume, h]
  rfl

/-- The outcome of stacking a tree. -/
theorem applyOperator_frame (limits : Limits) (frame : Frame) (frames : List Frame) (e : Expr)
    (below : List Subtree) :
    applyOperator limits frame.operator (.of e :: operands (frame :: frames) below) =
      stack limits (frame.close e) (frame.close e).height (operands frames below) := by
  cases frame <;> rfl

/-- Waiting operators are applied as long as they pass a test. Where their operands end at the next
token, the grammar closes the same frames. -/
theorem applyWhile_frames (limits : Limits) (test : Waiting → Bool) {tokens : List Token}
    (below : List Subtree) (waiting : List Waiting) (hs : test .sentinel = false)
    (frames : List Frame) (e : Expr)
    (h : ∀ frame ∈ frames, test (.operator frame.operator) → ∀ e,
      Grammar.chain frame.least e tokens = some (e, tokens)) :
    (∃ frames' e', (∀ frame ∈ frames', frame ∈ frames) ∧
      (∀ frame ∈ frames'.head?, test (.operator frame.operator) = false) ∧
      applyWhile limits test (stacked frames waiting) (.of e :: operands frames below) =
        .ok (stacked frames' waiting, .of e' :: operands frames' below) ∧
      resume frames e tokens = resume frames' e' tokens) ∨
    (applyWhile limits test (stacked frames waiting) (.of e :: operands frames below) =
        .error (.tooHigh limits.height) ∧
      ∀ e' rest, resume frames e tokens = some (e', rest) → limits.height < e'.height) := by
  induction frames generalizing e with
  | nil =>
    refine .inl ⟨[], e, by simp, by simp, ?_, rfl⟩
    simp [stacked, applyWhile, hs]
  | cons frame frames ih =>
    by_cases ht : test (.operator frame.operator)
    · have hstop := h frame List.mem_cons_self ht
      have happly : applyWhile limits test (stacked (frame :: frames) waiting)
          (.of e :: operands (frame :: frames) below) =
          (stack limits (frame.close e) (frame.close e).height (operands frames below) >>=
            applyWhile limits test (stacked frames waiting)) := by
        rw [← applyOperator_frame]
        simp only [stacked, List.map_cons, List.cons_append, applyWhile, ht, if_true]
      rw [happly, resume_cons_of_stop (hstop e)]
      unfold stack
      split
      · rename_i hh
        refine .inr ⟨rfl, fun e' rest hr => ?_⟩
        exact Nat.lt_of_lt_of_le hh (height_resume hr)
      · rcases ih (frame.close e) fun f hf => h f (List.mem_cons_of_mem _ hf) with
          ⟨frames', e', hsub, hhead, heq, hres⟩ | hhigh
        · exact .inl ⟨frames', e', fun f hf => List.mem_cons_of_mem _ (hsub f hf), hhead, heq, hres⟩
        · exact .inr hhigh
    · refine .inl ⟨frame :: frames, e, fun _ h => h, by simpa using ht, ?_, rfl⟩
      simp only [stacked, List.map_cons, List.cons_append, applyWhile, ht]
      rfl

/-! ## Statements of the simulation -/

/-- A run has read an expression and stands in front of `rest`. -/
def Reached (final : Token) (below : List Subtree) (waiting : List Waiting) (depth : Nat)
    (s : State) (e : Expr) (rest : List Token) : Prop :=
  ∃ position, s = ⟨⟨position, rest, final⟩, .of e :: below, waiting, depth⟩

/-- A run has read the arguments of a call and stands in front of the token that closes it. -/
def ReachedArguments (final : Token) (below : List Subtree) (waiting : List Waiting) (depth : Nat)
    (arity : Nat) (out : Nat × State) (args : List Expr) (rest : List Token) : Prop :=
  ∃ position close, close.closesCall = true ∧ out = (arity + args.length,
    ⟨⟨position, close :: rest, final⟩, (args.map .of).reverse ++ below, waiting, depth⟩)

section

variable (limits : Limits) (final : Token) (n : Nat)

/-- The parser agrees behind an operand that `n` tokens follow. -/
def ChainAgrees : Prop :=
  ∀ fuel position tokens e frames below waiting depth, tokens.length = n → 3 * n < fuel →
    Agrees limits (depth + n) Expr.height (Reached final below (.sentinel :: waiting) depth)
      (resume frames e tokens)
      (chain limits fuel
        ⟨⟨position, tokens, final⟩, .of e :: operands frames below, stacked frames waiting, depth⟩)

/-- The parser agrees on an operand with what follows it, `n` tokens in all. -/
def OperandAgrees : Prop :=
  ∀ fuel fuel' position tokens frames below waiting depth, tokens.length = n → 3 * n < fuel →
    3 * n < fuel' →
    Agrees limits (depth + n) Expr.height (Reached final below (.sentinel :: waiting) depth)
      ((Grammar.operand tokens).bind fun r => resume frames r.1 r.2)
      (operand limits fuel
        ⟨⟨position, tokens, final⟩, operands frames below, stacked frames waiting, depth⟩ >>=
        chain limits fuel')

/-- The parser agrees on an expression in front of `n` tokens. -/
def ExpressionAgrees : Prop :=
  ∀ fuel position tokens below waiting depth, tokens.length = n → 3 * n + 1 < fuel →
    Agrees limits (depth + n) Expr.height (Reached final below (.sentinel :: waiting) depth)
      (Grammar.climb 0 tokens)
      (expression limits fuel ⟨⟨position, tokens, final⟩, below, .sentinel :: waiting, depth⟩)

/-- The parser agrees on arguments in front of `n` tokens. -/
def ArgumentsAgree : Prop :=
  ∀ fuel position tokens separated arity below waiting depth, tokens.length = n →
    3 * n + 2 < fuel →
    Agrees limits (depth + n) Expr.heightOfList
      (ReachedArguments final below (.sentinel :: waiting) depth arity)
      (if separated then Grammar.slots tokens else Grammar.arguments tokens)
      (arguments limits fuel separated arity
        ⟨⟨position, tokens, final⟩, below, .sentinel :: waiting, depth⟩)

end

/-! ## Operators behind an operand -/

section

variable {limits : Limits} {final : Token} {n : Nat}

theorem peek_cons (position : Nat) (token : Token) (rest : List Token) (subtrees : List Subtree)
    (waiting : List Waiting) (depth : Nat) :
    State.peek ⟨⟨position, token :: rest, final⟩, subtrees, waiting, depth⟩ = token := rfl

section

variable (cursor : Token.Cursor) (depth : Nat) {op : Operator} {waiting waiting' : List Waiting}
  {subtrees subtrees' : List Subtree} {cause : SyntaxError}

theorem wait_of_ok
    (h : applyWhile limits (fun top => top.precedes op) waiting subtrees =
      .ok (waiting', subtrees')) :
    State.wait limits ⟨cursor, subtrees, waiting, depth⟩ op =
      .ok ⟨cursor, subtrees', .operator op :: waiting', depth⟩ := by
  rw [State.wait, State.reduceWhile, h]
  rfl

theorem wait_of_error
    (h : applyWhile limits (fun top => top.precedes op) waiting subtrees = .error cause) :
    State.wait limits ⟨cursor, subtrees, waiting, depth⟩ op = .error cause := by
  rw [State.wait, State.reduceWhile, h]
  rfl

end

theorem isInfixOp_final (hf : final.kind = .unspecified) : final.isInfixOp = false := by
  simp [Token.isInfixOp, hf]

/-- An infix operator waits until the operand behind it is read. -/
theorem resume_infix {frames : List Frame} {e : Expr} {token : Token} {rest : List Token}
    {precedence : Nat} (hi : token.isInfixOp)
    (hp : Grammar.precedence? token.value = some precedence)
    (h : ∀ frame ∈ frames.head?, frame.least ≤ precedence) :
    resume frames e (token :: rest) = (Grammar.operand rest).bind fun r =>
      resume (.binary token.value precedence e :: frames) r.1 r.2 := by
  cases frames with
  | nil =>
    rw [resume, Grammar.chain_cons hi, hp, Option.bind_some, if_pos (Nat.zero_le _),
      Grammar.climb_eq, Option.bind_assoc]
    rfl
  | cons frame frames =>
    rw [resume, Grammar.chain_cons hi, hp, Option.bind_some, if_pos (h frame rfl),
      Grammar.climb_eq, Option.bind_assoc, Option.bind_assoc]
    rfl

theorem resume_unsupported {frames : List Frame} {e : Expr} {token : Token} {rest : List Token}
    (hi : token.isInfixOp) (hp : Grammar.precedence? token.value = none) :
    resume frames e (token :: rest) = none := by
  cases frames <;> rw [resume, Grammar.chain_cons hi, hp] <;> rfl

/-- An operator waits, after those that precede it, until the operand behind it is read. -/
theorem infix_agrees (hO : ∀ m < n, OperandAgrees limits final m) {token : Token}
    (hi : token.isInfixOp) (fuel position : Nat) {rest : List Token} (e : Expr) (frames : List Frame)
    (below : List Subtree) (waiting : List Waiting) (depth : Nat) (hn : rest.length + 1 = n)
    (hfuel : 3 * n ≤ fuel) :
    Agrees limits (depth + n) Expr.height (Reached final below (.sentinel :: waiting) depth)
      (resume frames e (token :: rest))
      (Operator.binary token.value >>= fun op =>
        State.wait limits ⟨⟨position, token :: rest, final⟩, .of e :: operands frames below,
          stacked frames waiting, depth⟩ op >>= fun s =>
        s.advance >>= fun s => operand limits fuel s >>= chain limits fuel) := by
  rw [Operator.binary, ← Grammar.precedence?_eq]
  cases hp : Grammar.precedence? token.value with
  | none => exact resume_unsupported hi hp
  | some precedence =>
    have hstop : ∀ frame ∈ frames,
        Waiting.precedes (.operator frame.operator) ⟨token.value, precedence, .binary⟩ →
        ∀ e, Grammar.chain frame.least e (token :: rest) = some (e, token :: rest) := by
      intro frame _ hpre e
      have hle : precedence ≤ frame.operator.precedence := of_decide_eq_true hpre
      rw [Grammar.chain_cons hi, hp, Option.bind_some, if_neg (by unfold Frame.least; omega)]
    rcases applyWhile_frames limits (fun top => top.precedes ⟨token.value, precedence, .binary⟩) below
        waiting rfl frames e hstop with
      ⟨frames', e', -, hhead, hok, hres⟩ | ⟨herr, hhigh⟩
    · have hleast : ∀ frame ∈ frames'.head?, frame.least ≤ precedence := by
        intro frame hframe
        have hlt := of_decide_eq_false (hhead frame hframe)
        unfold Frame.least
        exact Nat.lt_of_not_le hlt
      rw [hres, resume_infix hi hp hleast]
      rw [ok_bind, wait_of_ok _ _ hok, ok_bind]
      have hrun := hO rest.length (by omega) fuel fuel (position + 1) rest
        (.binary token.value precedence e' :: frames') below waiting depth rfl (by omega)
        (by omega)
      exact hrun.mono (by omega)
    · rw [ok_bind, wait_of_error _ _ herr]
      exact ⟨rfl, hhigh⟩

/-- Where no operator follows, everything that waits is applied. -/
theorem reduceAll_agrees {tokens : List Token} (htokens : ∀ token ∈ tokens.head?, token.isInfixOp = false)
    (position : Nat) (e : Expr) (frames : List Frame) (below : List Subtree) (waiting : List Waiting)
    (depth reach : Nat) :
    Agrees limits reach Expr.height (Reached final below (.sentinel :: waiting) depth)
      (resume frames e tokens)
      (State.reduceAll limits
        ⟨⟨position, tokens, final⟩, .of e :: operands frames below, stacked frames waiting, depth⟩) := by
  have hstop : ∀ least e, Grammar.chain least e tokens = some (e, tokens) :=
    fun least e => Grammar.chain_of_not_infix htokens
  rcases applyWhile_frames limits (· != .sentinel) below waiting rfl frames e
      (fun frame _ _ => hstop frame.least) with
    ⟨frames', e', -, hhead, hok, hres⟩ | ⟨herr, hhigh⟩
  · obtain rfl : frames' = [] := by
      cases frames' with
      | nil => rfl
      | cons frame frames' => exact absurd (hhead frame rfl) (by simp)
    rw [State.reduceAll, State.reduceWhile, hok, hres]
    exact ⟨e', tokens, hstop 0 e', position, rfl⟩
  · rw [State.reduceAll, State.reduceWhile, herr]
    exact ⟨rfl, hhigh⟩

theorem chainAgrees (hf : final.kind = .unspecified)
    (hO : ∀ m < n, OperandAgrees limits final m) : ChainAgrees limits final n := by
  intro fuel position tokens e frames below waiting depth hn hfuel
  obtain ⟨fuel, rfl⟩ : ∃ k, fuel = k + 1 := ⟨fuel - 1, by omega⟩
  rw [chain]
  cases tokens with
  | nil =>
    rw [if_neg (by simp [State.peek, Token.Cursor.peek, isInfixOp_final hf])]
    exact reduceAll_agrees (by simp) position e frames below waiting depth _
  | cons token rest =>
    rw [peek_cons]
    split
    · rename_i hi
      exact infix_agrees hO hi fuel position e frames below waiting depth hn (by omega)
    · rename_i hi
      exact reduceAll_agrees (by simpa using hi) position e frames below waiting depth _

/-! ## Operands -/

/-- Postfix operators are put around the topmost subtree. -/
theorem trailing_agrees (position : Nat) (tokens : List Token) (e : Expr) (below : List Subtree)
    (waiting : List Waiting) (depth reach : Nat) :
    Agrees limits reach Expr.height (Reached final below waiting depth)
      (some (Grammar.postfixes e tokens))
      (trailing limits ⟨⟨position, tokens, final⟩, .of e :: below, waiting, depth⟩) := by
  induction tokens generalizing e position with
  | nil => exact ⟨e, [], rfl, position, rfl⟩
  | cons token rest ih =>
    by_cases hp : token.isPostfixOp
    · have hstep : trailing limits
          ⟨⟨position, token :: rest, final⟩, .of e :: below, waiting, depth⟩ =
          (stack limits (.unary token.value e) (e.height + 1) below >>= fun subtrees =>
            trailing limits ⟨⟨position + 1, rest, final⟩, subtrees, waiting, depth⟩) := by
        simp only [trailing, List.takeWhile_cons, hp, if_true, List.foldlM_cons]
        show (State.addTree limits ⟨⟨position + 1, rest, final⟩, below, waiting, depth⟩
          (.unary token.value e) (e.height + 1) >>= _) = _
        rw [State.addTree]
        cases stack limits (.unary token.value e) (e.height + 1) below <;> rfl
      rw [hstep, Grammar.postfixes, if_pos hp]
      unfold stack
      split
      · rename_i hh
        refine ⟨rfl, fun e' rest' hr => Nat.lt_of_lt_of_le hh ?_⟩
        have := (Grammar.height_postfixes (.unary token.value e) rest).1
        rw [Option.some.inj hr] at this
        exact this
      · exact ih (position + 1) (.unary token.value e)
    · have hstop : trailing limits
          ⟨⟨position, token :: rest, final⟩, .of e :: below, waiting, depth⟩ =
          .ok ⟨⟨position, token :: rest, final⟩, .of e :: below, waiting, depth⟩ := by
        simp only [trailing, List.takeWhile_cons, hp]
        rfl
      rw [hstop, Grammar.postfixes, if_neg hp]
      exact ⟨e, token :: rest, rfl, position, rfl⟩

/-- Reads an operand without the operators in front of it and behind it. -/
def primary (limits : Limits) (fuel : Nat) (token : Token) (s : State) : Outcome :=
  if token.isTerminal then terminal s
  else if token.opensGroup then do
    let s ← s.advance
    let s ← expression limits fuel (← s.enter limits)
    let s ← s.leave
    if s.peek.closesGroup then s.advance else .error .invalid
  else if token.opensCall then do
    let s ← s.advance
    let (arity, s) ← arguments limits fuel false 0 (← s.enter limits)
    finishCall limits token.value arity s
  else if token.isError then do
    return (← s.advance).addLeaf (.errorValue token.value)
  else if token.isUnknown then do
    return (← s.advance).addLeaf (.unknown token.value)
  else .error .invalid

theorem operand_eq (fuel : Nat) (s : State) (h : s.peek.isPrefixOp = false) :
    operand limits (fuel + 1) s = primary limits fuel s.peek s >>= trailing limits := by
  rw [operand, primary]
  simp only [h, Bool.false_eq_true, if_false]
  split
  · rfl
  split
  · simp only [bind_assoc]
    refine bind_congr fun _ => bind_congr fun _ => bind_congr fun _ => bind_congr fun s => ?_
    split <;> rfl
  split
  · simp only [bind_assoc]
  split
  · simp only [bind_assoc, pure_bind]
  split
  · simp only [bind_assoc, pure_bind]
  · rfl

theorem popMany_args (cursor : Token.Cursor) (args : List Expr) (below : List Subtree)
    (waiting : List Waiting) (depth : Nat) :
    State.popMany ⟨cursor, (args.map .of).reverse ++ below, waiting, depth⟩ args.length =
      .ok (args.map .of, ⟨cursor, below, waiting, depth⟩) := by
  have hlen : ((args.map Subtree.of).reverse).length = args.length := by simp
  simp only [State.popMany]
  rw [List.take_left' hlen, List.drop_left' hlen, if_neg (by omega), List.reverse_reverse]

theorem height_args (args : List Expr) :
    ((args.map Subtree.of).map (·.height)).foldl max 0 = Expr.heightOfList args := by
  have key : ∀ (args : List Expr) (n : Nat),
      ((args.map Subtree.of).map (·.height)).foldl max n = max n (Expr.heightOfList args) := by
    intro args
    induction args with
    | nil => intro n; simp [Expr.heightOfList]
    | cons arg rest ih =>
      intro n
      rw [List.map_cons, List.map_cons, List.foldl_cons, ih, Expr.heightOfList, Nat.max_assoc]
      rfl
  rw [key, Nat.zero_max]

/-- A call is made of its arguments and of the token that closes it. -/
theorem finishCall_agrees (position : Nat) (close : Token) (rest : List Token) (name : String)
    (args : List Expr) (below : List Subtree) (waiting : List Waiting) (depth reach : Nat) :
    Agrees limits reach Expr.height (Reached final below waiting depth)
      (some (.call name args, rest))
      (finishCall limits name args.length ⟨⟨position, close :: rest, final⟩,
        (args.map .of).reverse ++ below, .sentinel :: waiting, depth + 1⟩) := by
  have hexprs : (args.map Subtree.of).map (·.expr) = args := by
    rw [List.map_map]
    exact List.map_id'' (fun _ => rfl) args
  have hcode : finishCall limits name args.length ⟨⟨position, close :: rest, final⟩,
      (args.map .of).reverse ++ below, .sentinel :: waiting, depth + 1⟩ =
      (stack limits (.call name args) (Expr.call name args).height below >>= fun subtrees =>
        .ok ⟨⟨position + 1, rest, final⟩, subtrees, waiting, depth⟩) := by
    rw [finishCall, popMany_args, ok_bind]
    simp only [State.leave, ok_bind, height_args, hexprs, State.addTree, Expr.height]
    cases stack limits (.call name args) (1 + Expr.heightOfList args) below <;> rfl
  rw [hcode]
  unfold stack
  split
  · rename_i hh
    refine ⟨rfl, fun e rest' hr => ?_⟩
    cases hr
    exact hh
  · exact ⟨_, _, rfl, position + 1, rfl⟩

theorem isPostfixOp_final (hf : final.kind = .unspecified) : final.isPostfixOp = false := by
  simp [Token.isPostfixOp, hf]

theorem closesGroup_final (hf : final.kind = .unspecified) : final.closesGroup = false := by
  simp [Token.closesGroup, Token.is, hf]

theorem number_agrees (hf : final.kind = .unspecified) (position : Nat) (token : Token)
    (rest : List Token) (below : List Subtree) (waiting : List Waiting) (depth reach : Nat) :
    Agrees limits reach Expr.height (Reached final below waiting depth)
      ((NumberLiteral.read? token.value).map fun value => Grammar.number value rest)
      (number token ⟨⟨position, rest, final⟩, below, waiting, depth⟩) := by
  rw [number, ← NumberLiteral.read?_eq]
  cases NumberLiteral.read? token.value with
  | none => exact rfl
  | some value =>
    cases rest with
    | nil =>
      simp only [State.peek, Token.Cursor.peek, List.headD_nil, isPostfixOp_final hf]
      exact ⟨_, _, rfl, position, rfl⟩
    | cons next rest =>
      simp only [peek_cons, Option.map_some, Grammar.number, NumberLiteral.percent_eq]
      by_cases hp : next.isPostfixOp
      · simp only [hp, if_true]
        exact ⟨_, _, rfl, position + 1, rfl⟩
      · simp only [hp]
        exact ⟨_, _, rfl, position, rfl⟩

/-- What a literal or a reference is read to. -/
theorem terminal_cons (position : Nat) (token : Token) (rest : List Token)
    (below : List Subtree) (waiting : List Waiting) (depth : Nat) :
    terminal ⟨⟨position, token :: rest, final⟩, below, waiting, depth⟩ =
      let s : State := ⟨⟨position + 1, rest, final⟩, below, waiting, depth⟩
      if token.isNumber then number token s
      else if token.isText then .ok (s.addLeaf (.text token.value))
      else if token.isLogical then .ok (s.addLeaf (.logical (token.value == "TRUE")))
      else .ok (s.addLeaf (.reference token.value)) := rfl

/-- A bracket opens in front of `n` tokens, or the depth limit is in the way. -/
theorem enter_agrees {γ δ : Type} {height : γ → Nat} {Result : δ → γ → List Token → Prop}
    {read : Option (γ × List Token)} {f : State → Except SyntaxError δ} (cursor : Token.Cursor)
    (below : List Subtree) (waiting : List Waiting) (depth n : Nat)
    (h : Agrees limits (depth + 1 + n) height Result read
      (f ⟨cursor, below, .sentinel :: waiting, depth + 1⟩)) :
    Agrees limits (depth + (n + 1)) height Result read
      (State.enter limits ⟨cursor, below, waiting, depth⟩ >>= f) := by
  rw [State.enter]
  split
  · rename_i hd
    have hd : limits.depth ≤ depth := hd
    exact ⟨rfl, by omega⟩
  · exact h.mono (by omega)

theorem terminal_agrees (hf : final.kind = .unspecified) {token : Token} (hterminal : token.isTerminal)
    (position : Nat) (rest : List Token) (below : List Subtree) (waiting : List Waiting)
    (depth reach : Nat) :
    Agrees limits reach Expr.height (Reached final below waiting depth) (Grammar.primary token rest)
      (terminal ⟨⟨position, token :: rest, final⟩, below, waiting, depth⟩) := by
  rw [Grammar.primary, terminal_cons]
  by_cases hnumber : token.isNumber
  · simp only [hnumber, if_true]
    exact number_agrees hf _ _ _ _ _ _ _
  by_cases htext : token.isText
  · simp only [hnumber, htext, if_true]
    exact ⟨_, _, rfl, position + 1, rfl⟩
  by_cases hlogical : token.isLogical
  · simp only [hnumber, htext, hlogical, if_true]
    exact ⟨_, _, rfl, position + 1, rfl⟩
  have hrange : token.isRange := by simpa [Token.isTerminal, hnumber, htext, hlogical] using hterminal
  simp only [hnumber, htext, hlogical, hrange, if_true]
  refine ⟨_, _, rfl, position + 1, ?_⟩
  rw [Subtree.of, Expr.height_reference]
  rfl

/-- A group ends behind its expression. -/
theorem closeGroup_agrees (hf : final.kind = .unspecified) (position : Nat) (e : Expr)
    (rest : List Token) (below : List Subtree) (waiting : List Waiting) (depth reach : Nat) :
    Agrees limits reach Expr.height (Reached final below waiting depth) (Grammar.closeGroup e rest)
      (State.leave ⟨⟨position, rest, final⟩, .of e :: below, .sentinel :: waiting, depth + 1⟩ >>=
        fun s => if s.peek.closesGroup then s.advance else .error .invalid) := by
  cases rest with
  | nil =>
    simp only [State.leave, ok_bind, State.peek, Token.Cursor.peek, List.headD_nil,
      closesGroup_final hf]
    exact rfl
  | cons close rest =>
    simp only [State.leave, ok_bind, peek_cons, Grammar.closeGroup]
    by_cases hcloses : close.closesGroup
    · simp only [hcloses, if_true]
      exact ⟨_, _, rfl, position + 1, rfl⟩
    · simp only [hcloses]
      exact rfl

theorem group_agrees (hf : final.kind = .unspecified) (hE : ExpressionAgrees limits final n)
    (fuel position : Nat) {rest : List Token} (below : List Subtree) (waiting : List Waiting)
    (depth : Nat) (hn : rest.length = n) (hfuel : 3 * n + 1 < fuel) :
    Agrees limits (depth + (n + 1)) Expr.height (Reached final below waiting depth)
      ((Grammar.climb 0 rest).bind fun r => Grammar.closeGroup r.1 r.2)
      (State.enter limits ⟨⟨position, rest, final⟩, below, waiting, depth⟩ >>= fun s =>
        expression limits fuel s >>= fun s => s.leave >>= fun s =>
          if s.peek.closesGroup then s.advance else .error .invalid) := by
  refine enter_agrees ⟨position, rest, final⟩ below waiting depth n ?_
  refine Agrees.bind Grammar.closeGroup
    (fun s => s.leave >>= fun s => if s.peek.closesGroup then s.advance else .error .invalid)
    (hE fuel position rest below waiting (depth + 1) hn hfuel) ?_ ?_
  · intro e rest' e' rest'' _ hclose
    obtain ⟨close, -, -, rfl⟩ := Grammar.closeGroup_eq_some hclose
    exact Nat.le_refl _
  · rintro s e rest' - ⟨position', rfl⟩
    exact closeGroup_agrees hf position' e rest' below waiting depth _

theorem call_agrees (hA : ArgumentsAgree limits final n) (name : String) (fuel position : Nat)
    {rest : List Token} (below : List Subtree) (waiting : List Waiting) (depth : Nat)
    (hn : rest.length = n) (hfuel : 3 * n + 2 < fuel) :
    Agrees limits (depth + (n + 1)) Expr.height (Reached final below waiting depth)
      ((Grammar.arguments rest).bind fun r => some (.call name r.1, r.2))
      (State.enter limits ⟨⟨position, rest, final⟩, below, waiting, depth⟩ >>= fun s =>
        arguments limits fuel false 0 s >>= fun out => finishCall limits name out.1 out.2) := by
  refine enter_agrees ⟨position, rest, final⟩ below waiting depth n ?_
  refine Agrees.bind (fun args rest => some (Expr.call name args, rest))
    (fun out => finishCall limits name out.1 out.2)
    (hA fuel position rest false 0 below waiting (depth + 1) hn hfuel) ?_ ?_
  · intro args rest' e rest'' _ hcall
    cases hcall
    rw [Expr.height]
    exact Nat.le_add_left _ _
  · rintro ⟨arity, s⟩ args rest' - ⟨position', close, -, heq⟩
    cases heq
    rw [Nat.zero_add]
    exact finishCall_agrees _ _ _ _ _ _ _ _ _

theorem primary_agrees (hf : final.kind = .unspecified)
    (hE : ∀ m < n, ExpressionAgrees limits final m) (hA : ∀ m < n, ArgumentsAgree limits final m)
    (fuel position : Nat) (token : Token) {rest : List Token} (below : List Subtree)
    (waiting : List Waiting) (depth : Nat) (hn : rest.length + 1 = n) (hfuel : 3 * n ≤ fuel) :
    Agrees limits (depth + n) Expr.height (Reached final below waiting depth)
      (Grammar.primary token rest)
      (primary limits fuel token ⟨⟨position, token :: rest, final⟩, below, waiting, depth⟩) := by
  rw [primary]
  by_cases hterminal : token.isTerminal
  · rw [if_pos hterminal]
    exact terminal_agrees hf hterminal _ _ _ _ _ _
  rw [if_neg hterminal, Grammar.primary]
  simp only [Token.isTerminal, Bool.or_eq_true, not_or, Bool.not_eq_true] at hterminal
  simp only [hterminal, Bool.false_eq_true, if_false]
  subst hn
  split
  · exact group_agrees hf (hE rest.length (Nat.lt_succ_self _)) fuel (position + 1) below waiting depth
      rfl (by omega)
  split
  · exact call_agrees (hA rest.length (Nat.lt_succ_self _)) token.value fuel (position + 1) below
      waiting depth rfl (by omega)
  split
  · exact ⟨_, _, rfl, position + 1, rfl⟩
  split
  · exact ⟨_, _, rfl, position + 1, rfl⟩
  · exact rfl

theorem applyWhile_of_false (test : Waiting → Bool) (h : ∀ top, test top = false)
    (waiting : List Waiting) (subtrees : List Subtree) :
    applyWhile limits test waiting subtrees = .ok (waiting, subtrees) := by
  cases waiting with
  | nil => rfl
  | cons top below => simp only [applyWhile, h, Bool.false_eq_true, if_false]

/-- A prefix operator waits until the operand behind it is read. -/
theorem prefix_agrees (hO : ∀ m < n, OperandAgrees limits final m) {token : Token}
    (hp : token.isPrefixOp) (fuel fuel' position : Nat) {rest : List Token} (frames : List Frame)
    (below : List Subtree) (waiting : List Waiting) (depth : Nat) (hn : rest.length + 1 = n)
    (hfuel : 3 * n ≤ fuel) (hfuel' : 3 * n < fuel') :
    Agrees limits (depth + n) Expr.height (Reached final below (.sentinel :: waiting) depth)
      ((Grammar.operand (token :: rest)).bind fun r => resume frames r.1 r.2)
      (operand limits (fuel + 1) ⟨⟨position, token :: rest, final⟩, operands frames below,
        stacked frames waiting, depth⟩ >>= chain limits fuel') := by
  rw [operand, Grammar.operand]
  simp only [peek_cons, hp, if_true]
  by_cases hv : token.value = "-"
  · have hwait : applyWhile limits (fun top => top.precedes ⟨"-", Operator.prefixPrecedence,
        .unary⟩) (stacked frames waiting) (operands frames below) =
        .ok (stacked frames waiting, operands frames below) := by
      refine applyWhile_of_false _ (fun top => ?_) _ _
      cases top <;> rfl
    have hread : ((Grammar.climb (Operator.prefixPrecedence + 1) rest).bind fun r =>
        resume frames (.unary "-" r.1) r.2) =
        (Grammar.operand rest).bind fun r => resume (.minus :: frames) r.1 r.2 := by
      rw [Grammar.climb_eq, Option.bind_assoc]
      rfl
    have hrun := hO rest.length (by omega) fuel fuel' (position + 1) rest (.minus :: frames)
      below waiting depth rfl (by omega) (by omega)
    simp only [Operator.unary, hv, if_true, ok_bind, wait_of_ok _ _ hwait]
    rw [← hread] at hrun
    simp only [Option.bind_eq_bind, Option.bind_assoc]
    exact hrun.mono (by omega)
  · simp only [Operator.unary, hv, if_false]
    exact rfl

/-- What follows an operand is read: the operators behind it, and then the rest of the chain. -/
theorem behind_agrees (hf : final.kind = .unspecified) (hO : ∀ m < n, OperandAgrees limits final m)
    (fuel position : Nat) {rest : List Token} (e : Expr) (frames : List Frame) (below : List Subtree)
    (waiting : List Waiting) (depth : Nat) (hn : rest.length < n) (hfuel : 3 * n < fuel) :
    Agrees limits (depth + n) Expr.height (Reached final below (.sentinel :: waiting) depth)
      (resume frames (Grammar.postfixes e rest).1 (Grammar.postfixes e rest).2)
      (trailing limits ⟨⟨position, rest, final⟩, .of e :: operands frames below,
        stacked frames waiting, depth⟩ >>= chain limits fuel) := by
  refine Agrees.bind (fun e rest => resume frames e rest) (chain limits fuel)
    (trailing_agrees position rest e (operands frames below) (stacked frames waiting) depth
      (depth + n)) ?_ ?_
  · intro e' _ _ _ _ hnext
    exact height_resume hnext
  · rintro s e' rest' htrail ⟨position', rfl⟩
    have hshort : e.height ≤ e'.height ∧ e'.height + rest'.length ≤ e.height + rest.length := by
      simpa only [Option.some.inj htrail] using Grammar.height_postfixes e rest
    have hchain : ChainAgrees limits final rest'.length :=
      chainAgrees hf fun m hm => hO m (by omega)
    have hrun := hchain fuel position' rest' e' frames below waiting depth rfl (by omega)
    exact hrun.mono (by omega)

theorem operandAgrees (hf : final.kind = .unspecified)
    (hO : ∀ m < n, OperandAgrees limits final m) (hE : ∀ m < n, ExpressionAgrees limits final m)
    (hA : ∀ m < n, ArgumentsAgree limits final m) : OperandAgrees limits final n := by
  intro fuel fuel' position tokens frames below waiting depth hn hfuel hfuel'
  obtain ⟨fuel, rfl⟩ : ∃ k, fuel = k + 1 := ⟨fuel - 1, by omega⟩
  cases tokens with
  | nil =>
    have hcode : operand limits (fuel + 1) ⟨⟨position, [], final⟩, operands frames below,
        stacked frames waiting, depth⟩ = .error .invalid := by
      simp [operand, State.peek, Token.Cursor.peek, Token.isPrefixOp, Token.isTerminal,
        Token.isNumber, Token.isText, Token.isLogical, Token.isRange, Token.opensGroup,
        Token.opensCall, Token.isError, Token.isUnknown, Token.is, hf]
    rw [hcode, Grammar.operand]
    exact rfl
  | cons token rest =>
    have hlen : rest.length + 1 = n := hn
    by_cases hp : token.isPrefixOp
    · exact prefix_agrees hO hp fuel fuel' position frames below waiting depth hlen (by omega) hfuel'
    · have hread : ((Grammar.operand (token :: rest)).bind fun r => resume frames r.1 r.2) =
          (Grammar.primary token rest).bind fun r =>
            resume frames (Grammar.postfixes r.1 r.2).1 (Grammar.postfixes r.1 r.2).2 := by
        rw [Grammar.operand]
        simp only [hp]
        exact Option.bind_assoc _ _ _
      rw [hread, operand_eq _ _ (by simpa [peek_cons] using hp), bind_assoc]
      refine Agrees.bind (fun e rest => resume frames (Grammar.postfixes e rest).1
        (Grammar.postfixes e rest).2) (fun s => trailing limits s >>= chain limits fuel')
        (primary_agrees hf hE hA fuel position token (operands frames below)
          (stacked frames waiting) depth hlen (by omega)) ?_ ?_
      · intro e rest' e' rest'' _ hnext
        exact Nat.le_trans (Grammar.height_postfixes e rest').1 (height_resume hnext)
      · rintro s e rest' hprimary ⟨position', rfl⟩
        have hle : rest'.length ≤ rest.length := Grammar.length_primary hprimary
        exact behind_agrees hf hO fuel' position' e frames below waiting depth (by omega) hfuel'

/-! ## Expressions and arguments -/

theorem expressionAgrees (hO : OperandAgrees limits final n) : ExpressionAgrees limits final n := by
  intro fuel position tokens below waiting depth hn hfuel
  obtain ⟨fuel, rfl⟩ : ∃ k, fuel = k + 1 := ⟨fuel - 1, by omega⟩
  rw [expression, Grammar.climb_eq]
  exact hO fuel fuel position tokens [] below waiting depth hn (by omega) (by omega)

theorem separatesArguments_final (hf : final.kind = .unspecified) :
    final.separatesArguments = false := by
  simp [Token.separatesArguments, hf]

theorem closesCall_final (hf : final.kind = .unspecified) : final.closesCall = false := by
  simp [Token.closesCall, Token.is, hf]

/-- One argument is read, in front of a token that does not close the call. -/
theorem slot_agrees (hf : final.kind = .unspecified) (hE : ExpressionAgrees limits final n)
    (fuel position : Nat) {tokens : List Token} (below : List Subtree)
    (waiting : List Waiting) (depth : Nat) (hn : tokens.length = n) (hfuel : 3 * n + 1 < fuel)
    (hc : ∀ token ∈ tokens.head?, token.closesCall = false) :
    Agrees limits (depth + n) Expr.height (Reached final below (.sentinel :: waiting) depth)
      (Grammar.slot tokens)
      (let s : State := ⟨⟨position, tokens, final⟩, below, .sentinel :: waiting, depth⟩
       if s.peek.separatesArguments then pure (s.addLeaf .emptyArgument)
       else expression limits fuel s) := by
  have hrun := hE fuel position tokens below waiting depth hn hfuel
  cases tokens with
  | nil =>
    have hnone : Grammar.climb 0 [] = Grammar.slot [] := by
      rw [Grammar.climb_eq, Grammar.operand, Grammar.slot]
      rfl
    simp only [State.peek, Token.Cursor.peek, List.headD_nil, separatesArguments_final hf,
      Bool.false_eq_true, if_false]
    rw [← hnone]
    exact hrun
  | cons token rest =>
    rw [Grammar.slot]
    simp only [peek_cons, hc token rfl, Bool.or_false]
    by_cases hs : token.separatesArguments
    · simp only [hs, if_true]
      exact ⟨_, _, rfl, position, rfl⟩
    · simp only [hs]
      exact hrun

/-- An argument is put in front of those behind its separator. -/
theorem arguments_cons {arity depth reach : Nat} {tokens : List Token} {arg : Expr}
    {below : List Subtree} {waiting : List Waiting} {outcome : Except SyntaxError (Nat × State)}
    (h : Agrees limits reach Expr.heightOfList
      (ReachedArguments final (.of arg :: below) waiting depth (arity + 1)) (Grammar.slots tokens)
      outcome) :
    Agrees limits reach Expr.heightOfList (ReachedArguments final below waiting depth arity)
      ((Grammar.slots tokens).bind fun r => some (arg :: r.1, r.2)) outcome := by
  rw [← bind_pure outcome]
  refine Agrees.bind (fun args rest => some (arg :: args, rest)) pure h ?_ ?_
  · intro args rest args' rest' _ hnext
    cases hnext
    exact Nat.le_max_right _ _
  · rintro out args rest - ⟨position, close, hc, rfl⟩
    refine ⟨_, _, rfl, position, close, hc, ?_⟩
    rw [List.length_cons, List.map_cons, List.reverse_cons, List.append_assoc]
    congr 1
    omega

/-- What follows an argument is read, in front of at most `n` tokens. -/
theorem afterSlot_agrees (hf : final.kind = .unspecified)
    (hA : ∀ m < n, ArgumentsAgree limits final m) (fuel position arity : Nat) (arg : Expr)
    {rest : List Token} (below : List Subtree) (waiting : List Waiting) (depth : Nat)
    (hn : rest.length ≤ n) (hfuel : 3 * n + 1 < fuel) :
    Agrees limits (depth + n) Expr.heightOfList
      (ReachedArguments final below (.sentinel :: waiting) depth arity)
      (Grammar.afterSlot arg rest)
      (let s : State := ⟨⟨position, rest, final⟩, .of arg :: below, .sentinel :: waiting, depth⟩
       if s.peek.separatesArguments then
         s.advance >>= fun s => arguments limits fuel true (arity + 1) s
       else if s.peek.closesCall then .ok (arity + 1, s) else .error .invalid) := by
  cases rest with
  | nil =>
    simp only [State.peek, Token.Cursor.peek, List.headD_nil, separatesArguments_final hf,
      closesCall_final hf]
    exact rfl
  | cons token rest =>
    rw [List.length_cons] at hn
    simp only [peek_cons, Grammar.afterSlot]
    by_cases hs : token.separatesArguments
    · simp only [hs, if_true]
      have hrun := hA rest.length hn fuel (position + 1) rest true (arity + 1) (.of arg :: below)
        waiting depth rfl (by omega)
      exact arguments_cons (hrun.mono (by omega))
    · by_cases hc : token.closesCall
      · simp only [hs, hc, if_true]
        exact ⟨_, _, rfl, position, token, hc, rfl⟩
      · simp only [hs, hc]
        exact rfl

theorem argumentsAgree (hf : final.kind = .unspecified) (hE : ExpressionAgrees limits final n)
    (hA : ∀ m < n, ArgumentsAgree limits final m) : ArgumentsAgree limits final n := by
  intro fuel position tokens separated arity below waiting depth hn hfuel
  obtain ⟨fuel, rfl⟩ : ∃ k, fuel = k + 1 := ⟨fuel - 1, by omega⟩
  rw [arguments]
  by_cases hc : ∃ token rest, tokens = token :: rest ∧ token.closesCall = true
  · obtain ⟨token, rest, rfl, hc⟩ := hc
    simp only [peek_cons, hc, if_true]
    cases separated with
    | false =>
      simp only [Bool.false_eq_true, if_false, Grammar.arguments_of_close hc]
      exact ⟨_, _, rfl, position, token, hc, rfl⟩
    | true =>
      simp only [if_true, Grammar.slots_of_close hc]
      exact ⟨_, _, rfl, position, token, hc, rfl⟩
  · have hhead : ∀ token ∈ tokens.head?, token.closesCall = false := by
      intro token ht
      obtain ⟨rest, rfl⟩ := List.head?_eq_some_iff.1 ht
      exact Bool.eq_false_iff.2 fun h => hc ⟨_, _, rfl, h⟩
    have hpeek : (State.peek
        ⟨⟨position, tokens, final⟩, below, .sentinel :: waiting, depth⟩).closesCall = false := by
      cases tokens with
      | nil => exact closesCall_final hf
      | cons first rest => exact hhead first rfl
    rw [Grammar.arguments_eq_slots hhead, ite_self, Grammar.slots_eq, hpeek, if_neg Bool.false_ne_true,
      ← ite_bind]
    refine Agrees.bind Grammar.afterSlot
      (fun s =>
        if s.peek.separatesArguments then
          s.advance >>= fun s => arguments limits fuel true (arity + 1) s
        else if s.peek.closesCall then .ok (arity + 1, s) else .error .invalid)
      (slot_agrees hf hE fuel position below waiting depth hn (by omega) hhead) ?_ ?_
    · intro arg rest args rest' _ hnext
      exact Grammar.height_le_afterSlot hnext
    · rintro s arg rest hslot ⟨position', rfl⟩
      have hlength := Grammar.length_slot hslot
      exact afterSlot_agrees hf hA fuel position' arity arg below waiting depth (by omega) (by omega)

/-! ## Whole runs -/

theorem simulates (limits : Limits) (hf : final.kind = .unspecified) (n : Nat) :
    OperandAgrees limits final n ∧ ExpressionAgrees limits final n ∧
      ArgumentsAgree limits final n := by
  induction n using Nat.strongRecOn with
  | _ n ih =>
    have hO : OperandAgrees limits final n :=
      operandAgrees hf (fun m hm => (ih m hm).1) (fun m hm => (ih m hm).2.1)
        fun m hm => (ih m hm).2.2
    have hE := expressionAgrees hO
    exact ⟨hO, hE, argumentsAgree hf hE fun m hm => (ih m hm).2.2⟩

end

/-- The parser agrees with the grammar on a list of tokens. -/
theorem parse_agrees (limits : Limits) (tokens : List Token) :
    Agrees limits tokens.length Expr.height (fun e e' _ => e = e')
      ((Grammar.parse tokens).map fun e => (e, [])) (parse limits tokens) := by
  by_cases hempty : tokens = []
  · subst hempty
    have hnone : Grammar.climb 0 [] = none := by
      rw [Grammar.climb_eq, Grammar.operand]
      rfl
    rw [Grammar.parse, hnone]
    exact rfl
  obtain ⟨final, hf, hcursor⟩ : ∃ final : Token, final.kind = .unspecified ∧
      Token.Cursor.ofTokens tokens = ⟨0, tokens, final⟩ := ⟨_, rfl, rfl⟩
  have hrun := (simulates limits hf tokens.length).2.1 (3 * tokens.length + 3) 0 tokens [] [] 0 rfl
    (by omega)
  have hcode : parse limits tokens =
      (expression limits (3 * tokens.length + 3) ⟨⟨0, tokens, final⟩, [], [.sentinel], 0⟩ >>= fun s =>
        if !s.cursor.atEnd then .error .invalid
        else s.pop >>= fun r =>
          if !r.2.subtrees.isEmpty then .error .leftoverOperands else .ok r.1.expr) := by
    rw [parse, if_neg (by simpa using hempty), State.initial, hcursor]
    rfl
  have hread : (Grammar.parse tokens).map (fun e => (e, ([] : List Token))) =
      (Grammar.climb 0 tokens).bind fun r => if r.2.isEmpty then some (r.1, []) else none := by
    rw [Grammar.parse]
    rcases Grammar.climb 0 tokens with _ | ⟨e, _ | _⟩ <;> rfl
  rw [hcode, hread]
  refine Agrees.bind (fun e (rest : List Token) => if rest.isEmpty then some (e, []) else none) _
    (hrun.mono (Nat.le_of_eq (Nat.zero_add _))) ?_ ?_
  · intro e rest e' rest' _ hnext
    cases rest <;> cases hnext
    exact Nat.le_refl _
  · rintro s e rest - ⟨position, rfl⟩
    cases rest with
    | nil => exact ⟨_, _, rfl, rfl⟩
    | cons token rest => exact rfl

theorem grammar_of_parse {limits : Limits} {tokens : List Token} {e : Expr}
    (h : parse limits tokens = .ok e) : Grammar.parse tokens = some e := by
  have hrun := parse_agrees limits tokens
  rw [h] at hrun
  obtain ⟨e', rest, hread, rfl⟩ := hrun
  obtain ⟨e', hparse, heq⟩ := Option.map_eq_some_iff.1 hread
  cases heq
  exact hparse

theorem parse_of_grammar {limits : Limits} {tokens : List Token} {e : Expr}
    (h : Grammar.parse tokens = some e) (hdepth : tokens.length ≤ limits.depth)
    (hheight : e.height ≤ limits.height) : parse limits tokens = .ok e := by
  have hrun := parse_agrees limits tokens
  rw [h] at hrun
  generalize parse limits tokens = outcome at hrun ⊢
  cases outcome with
  | ok e' =>
    obtain ⟨_, _, hread, rfl⟩ := hrun
    cases hread
    rfl
  | error cause =>
    cases cause with
    | tooHigh limit => exact absurd (hrun.2 e [] rfl) (Nat.not_lt.2 hheight)
    | tooDeep limit => exact absurd hrun.2 (Nat.not_lt.2 hdepth)
    | _ => cases hrun

/-- With limits that leave room for every token, the parser succeeds exactly where the grammar
reads all tokens, with the expression of the grammar. -/
theorem toOption_parse (limits : Limits) (tokens : List Token)
    (hdepth : tokens.length ≤ limits.depth) (hheight : tokens.length ≤ limits.height) :
    (parse limits tokens).toOption = Grammar.parse tokens := by
  cases hread : Grammar.parse tokens with
  | some e =>
    have hlow := Grammar.height_parse hread
    rw [parse_of_grammar hread hdepth (by omega)]
    rfl
  | none =>
    cases hcode : parse limits tokens with
    | error cause => rfl
    | ok e => rw [grammar_of_parse hcode] at hread; cases hread

/-- A minus sign binds tighter than a power, and a product tighter than a sum. The percent sign scales
the number in front of it. The second argument of the call is left out. -/
theorem toOption_parse_call_in_sum :
    Grammar.parse
        [⟨"F", .function, .start, 1, 3⟩, ⟨"-", .prefixOp, .unspecified, 3, 4⟩,
          ⟨"", .subexpr, .start, 4, 5⟩, ⟨"A1", .operand, .range, 5, 7⟩,
          ⟨"&", .infixOp, .concat, 7, 8⟩, ⟨"x", .operand, .text, 8, 11⟩,
          ⟨"", .subexpr, .stop, 11, 12⟩, ⟨"^", .infixOp, .math, 12, 13⟩,
          ⟨"57", .operand, .number, 13, 15⟩, ⟨"%", .postfixOp, .unspecified, 15, 16⟩,
          ⟨",", .argument, .unspecified, 16, 17⟩, ⟨"", .function, .stop, 17, 18⟩,
          ⟨"+", .infixOp, .math, 18, 19⟩, ⟨"B1:C2", .operand, .range, 19, 24⟩,
          ⟨"*", .infixOp, .math, 24, 25⟩, ⟨"3", .operand, .number, 25, 26⟩] =
      some (.binary "+"
        (.call "F"
          [.binary "^" (.unary "-" (.binary "&" (.cell ⟨.relative, "A1"⟩) (.text "x")))
            (.number (.ofCode false 0x3FE23D70A3D70A3E)), .emptyArgument])
        (.binary "*" (.cellRange ⟨.relative, "B1"⟩ ⟨.relative, "C2"⟩)
          (.number (.ofCode false 0x4008000000000000)))) := by
  -- The product with one hundredth is not the number nearest to 0.57, but the next one.
  have hscaled : (Number.Decimal.toBinary64 false ⟨57, 0⟩).percent =
      .ofCode false 0x3FE23D70A3D70A3E := by
    decide +kernel
  have hthree : Number.Decimal.toBinary64 false ⟨3, 0⟩ = .ofCode false 0x4008000000000000 := by
    decide +kernel
  rw [← toOption_parse .standard _ (by decide) (by decide), ← hscaled, ← hthree]
  rfl

end SheetFormula.Parser
