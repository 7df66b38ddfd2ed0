import SheetFormula.Proofs.Rendering

/-!
# What is read of a token

The spans of tokens and the spelling of a separator mean nothing to the parser, and the passes over
raw tokens look at a literal of a locale only to resolve it.

1. `Token.essence` forgets the former: `Parser.parse_map_essence`.
2. `Token.gist` resolves a literal as well. What the passes make of raw tokens depends on the gists of
   these only: `Token.normalize_map_gist`.
-/

namespace SheetFormula

namespace Token

/-- A token without its place. How a separator is written is forgotten, too. -/
def essence (token : Token) : Token :=
  { token with value := if token.kind = .argument then "" else token.value, start := 0, stop := 0 }

@[simp] theorem kind_essence (token : Token) : token.essence.kind = token.kind := rfl

@[simp] theorem subkind_essence (token : Token) : token.essence.subkind = token.subkind := rfl

theorem value_essence {token : Token} (h : token.kind ≠ .argument) :
    token.essence.value = token.value := if_neg h

namespace Cursor

/-- A cursor over tokens without their places. -/
def essence (cursor : Cursor) : Cursor :=
  ⟨cursor.position, cursor.unread.map Token.essence, cursor.final.essence⟩

theorem peek_essence (cursor : Cursor) : cursor.essence.peek = cursor.peek.essence := by
  obtain ⟨position, unread, final⟩ := cursor
  cases unread <;> rfl

theorem advance_essence (cursor : Cursor) :
    cursor.essence.advance = cursor.advance.map essence := by
  obtain ⟨position, unread, final⟩ := cursor
  cases unread <;> rfl

end Cursor

end Token

/-! ## The parser -/

namespace Parser

/-- A run over tokens without their places. -/
def State.essence (s : State) : State := { s with cursor := s.cursor.essence }

section

variable {ε α α' β β' : Type}

/-- Two steps whose outcomes correspond, one behind the other. -/
theorem bind_map {x : Except ε α} {x' : Except ε α'} {f : α → α'} {g : α → Except ε β}
    {g' : α' → Except ε β'} {k : β → β'} (hx : x' = x.map f) (hg : ∀ a, g' (f a) = (g a).map k) :
    (x' >>= g') = (x >>= g).map k := by
  subst hx
  cases x with
  | error cause => rfl
  | ok a => exact hg a

/-- The same step in front of two that correspond. -/
theorem bind_map_same {x : Except ε α} {g : α → Except ε β} {g' : α → Except ε β'} {k : β → β'}
    (hg : ∀ a, g' a = (g a).map k) : (x >>= g') = (x >>= g).map k :=
  bind_map (f := id) (by cases x <;> rfl) hg

/-- Two choices whose branches correspond. -/
theorem ite_map {p p' : Prop} [Decidable p] [Decidable p'] {x y : Except ε α} {x' y' : Except ε α'}
    {f : α → α'} (hp : p' ↔ p) (hx : p → x' = x.map f) (hy : ¬ p → y' = y.map f) :
    (if p' then x' else y') = (if p then x else y).map f := by
  by_cases h : p
  · rw [if_pos h, if_pos (hp.2 h), hx h]
  · rw [if_neg h, if_neg (mt hp.1 h), hy h]

end

section

variable {limits : Limits} (s : State)

theorem peek_essence : s.essence.peek = s.peek.essence := s.cursor.peek_essence

theorem advance_essence : s.essence.advance = s.advance.map State.essence := by
  unfold State.advance
  exact bind_map s.cursor.advance_essence fun _ => rfl

theorem addTree_essence (e : Expr) (height : Nat) :
    s.essence.addTree limits e height = (s.addTree limits e height).map State.essence :=
  bind_map_same fun _ => rfl

theorem reduceWhile_essence (test : Waiting → Bool) :
    s.essence.reduceWhile limits test = (s.reduceWhile limits test).map State.essence :=
  bind_map_same fun _ => rfl

theorem wait_essence (op : Operator) :
    s.essence.wait limits op = (s.wait limits op).map State.essence :=
  bind_map (reduceWhile_essence s _) fun _ => rfl

theorem enter_essence : s.essence.enter limits = (s.enter limits).map State.essence :=
  ite_map .rfl (fun _ => rfl) fun _ => rfl

theorem leave_essence : s.essence.leave = s.leave.map State.essence := by
  obtain ⟨cursor, subtrees, waiting, depth⟩ := s
  unfold State.leave State.essence
  cases waiting with
  | nil => rfl
  | cons top below => cases top <;> rfl

theorem pop_essence : s.essence.pop = s.pop.map (Prod.map id State.essence) := by
  obtain ⟨cursor, subtrees, waiting, depth⟩ := s
  unfold State.pop State.essence
  cases subtrees <;> rfl

theorem popMany_essence (count : Nat) :
    s.essence.popMany count = (s.popMany count).map (Prod.map id State.essence) :=
  ite_map .rfl (fun _ => rfl) fun _ => rfl

/-! ### Operands without brackets -/

theorem number_essence {token : Token} (h : token.isNumber) :
    number token.essence s.essence = (number token s).map State.essence := by
  have hvalue : token.essence.value = token.value := by
    refine Token.value_essence ?_
    simp only [Token.isNumber, Token.is, Bool.and_eq_true, beq_iff_eq] at h
    simp [h.1]
  unfold number
  rw [hvalue]
  cases Number.Binary64.ofText? token.value with
  | none => rfl
  | some value =>
    refine ite_map ?_ (fun _ => ?_) fun _ => rfl
    · rw [peek_essence]
      rfl
    · exact bind_map (advance_essence s) fun _ => rfl

/-- What a token that is an operand means. -/
theorem terminal_essence (h : s.peek.isTerminal) :
    terminal s.essence = (terminal s).map State.essence := by
  have hkind : s.peek.kind ≠ .argument := by
    simp only [Token.isTerminal, Token.isNumber, Token.isText, Token.isLogical, Token.isRange,
      Token.is, Bool.or_eq_true, Bool.and_eq_true, beq_iff_eq] at h
    rcases h with ((h | h) | h) | h <;> simp [h.1]
  unfold terminal
  refine bind_map (advance_essence s) fun s' => ?_
  rw [peek_essence, Token.value_essence hkind]
  refine ite_map .rfl (fun hnumber => ?_) fun _ => ite_map .rfl (fun _ => rfl) fun _ =>
    ite_map .rfl (fun _ => rfl) fun _ => rfl
  exact number_essence s' hnumber

theorem applyPostfix_essence {token : Token} (h : token.isPostfixOp) :
    applyPostfix limits s.essence token.essence =
      (applyPostfix limits s token).map State.essence := by
  have hvalue : token.essence.value = token.value := by
    refine Token.value_essence ?_
    simp only [Token.isPostfixOp, beq_iff_eq] at h
    simp [h]
  unfold applyPostfix
  rw [hvalue]
  refine bind_map (advance_essence s) fun s' => bind_map (pop_essence s') fun r => ?_
  exact addTree_essence r.2 _ _

theorem trailing_essence : trailing limits s.essence = (trailing limits s).map State.essence := by
  have hfold : ∀ tokens : List Token, (∀ token ∈ tokens, token.isPostfixOp) → ∀ s : State,
      (tokens.map Token.essence).foldlM (applyPostfix limits) s.essence =
        (tokens.foldlM (applyPostfix limits) s).map State.essence := by
    intro tokens
    induction tokens with
    | nil => exact fun _ _ => rfl
    | cons token tokens ih =>
      intro h s
      rw [List.map_cons, List.foldlM_cons, List.foldlM_cons]
      exact bind_map (applyPostfix_essence s (h token List.mem_cons_self))
        (ih fun token ht => h token (List.mem_cons_of_mem _ ht))
  have hunread : s.essence.cursor.unread.takeWhile Token.isPostfixOp =
      (s.cursor.unread.takeWhile Token.isPostfixOp).map Token.essence :=
    List.takeWhile_map ..
  unfold trailing
  rw [hunread]
  exact hfold _ (List.all_eq_true.1 List.all_takeWhile) s

theorem finishCall_essence (name : String) (arity : Nat) :
    finishCall limits name arity s.essence =
      (finishCall limits name arity s).map State.essence := by
  unfold finishCall
  refine bind_map (popMany_essence s arity) fun r => bind_map (leave_essence r.2) fun s' =>
    bind_map (addTree_essence s' _ _) advance_essence

end

/-! ### Expressions -/

section

variable {limits : Limits}

/-- Whether the functions of the parser do the same without the places of tokens. -/
structure Same (limits : Limits) (fuel : Nat) : Prop where
  expression : ∀ s, expression limits fuel s.essence = (expression limits fuel s).map State.essence
  chain : ∀ s, chain limits fuel s.essence = (chain limits fuel s).map State.essence
  operand : ∀ s, operand limits fuel s.essence = (operand limits fuel s).map State.essence
  arguments : ∀ separated arity s, arguments limits fuel separated arity s.essence =
    (arguments limits fuel separated arity s).map (Prod.map id State.essence)

theorem Same.chain_succ {fuel : Nat} (h : Same limits fuel) (s : State) :
    Parser.chain limits (fuel + 1) s.essence =
      (Parser.chain limits (fuel + 1) s).map State.essence := by
  rw [Parser.chain, Parser.chain, peek_essence]
  refine ite_map .rfl (fun hbinary => ?_) fun _ => reduceWhile_essence s _
  have hvalue : s.peek.essence.value = s.peek.value := by
    refine Token.value_essence ?_
    simp only [Token.isInfixOp, beq_iff_eq] at hbinary
    simp [hbinary]
  rw [hvalue]
  exact bind_map_same fun op => bind_map (wait_essence s op) fun s => bind_map (advance_essence s)
    fun s => bind_map (h.operand s) h.chain

theorem Same.operand_succ {fuel : Nat} (h : Same limits fuel) (s : State) :
    Parser.operand limits (fuel + 1) s.essence =
      (Parser.operand limits (fuel + 1) s).map State.essence := by
  have hvalue : s.peek.kind ≠ .argument → s.peek.essence.value = s.peek.value :=
    Token.value_essence
  rw [Parser.operand, Parser.operand, peek_essence]
  refine ite_map .rfl (fun hunary => ?_) fun _ => ite_map .rfl (fun hterminal => ?_) fun _ =>
    ite_map .rfl (fun _ => ?_) fun _ => ite_map .rfl (fun hcall => ?_) fun _ =>
    ite_map .rfl (fun herror => ?_) fun _ => ite_map .rfl (fun hunknown => ?_) fun _ => rfl
  · rw [hvalue (by simp only [Token.isPrefixOp, beq_iff_eq] at hunary; simp [hunary])]
    exact bind_map_same fun op => bind_map (wait_essence s op) fun s =>
      bind_map (advance_essence s) h.operand
  · exact bind_map (terminal_essence s hterminal) trailing_essence
  · refine bind_map (advance_essence s) fun s => bind_map (enter_essence s) fun s =>
      bind_map (h.expression s) fun s => bind_map (leave_essence s) fun s => ?_
    rw [peek_essence]
    exact ite_map .rfl (fun _ => bind_map (advance_essence s) trailing_essence) fun _ => rfl
  · rw [hvalue (by
      simp only [Token.opensCall, Token.is, Bool.and_eq_true, beq_iff_eq] at hcall
      simp [hcall.1])]
    exact bind_map (advance_essence s) fun s => bind_map (enter_essence s) fun s =>
      bind_map (h.arguments false 0 s) fun r => bind_map (finishCall_essence r.2 _ _) trailing_essence
  · rw [hvalue (by
      simp only [Token.isError, Token.is, Bool.and_eq_true, beq_iff_eq] at herror
      simp [herror.1])]
    exact bind_map (advance_essence s) fun s => trailing_essence (s.addLeaf _)
  · rw [hvalue (by simp only [Token.isUnknown, beq_iff_eq] at hunknown; simp [hunknown])]
    exact bind_map (advance_essence s) fun s => trailing_essence (s.addLeaf _)

/-- What is done behind a slot of a call. -/
def afterSlot (limits : Limits) (fuel arity : Nat) (s : State) : Except SyntaxError (Nat × State) :=
  if s.peek.separatesArguments then do
    arguments limits fuel true (arity + 1) (← s.advance)
  else if s.peek.closesCall then .ok (arity + 1, s)
  else .error .invalid

theorem Same.afterSlot {fuel : Nat} (h : Same limits fuel) (arity : Nat) (s : State) :
    Parser.afterSlot limits fuel arity s.essence =
      (Parser.afterSlot limits fuel arity s).map (Prod.map id State.essence) := by
  rw [Parser.afterSlot, Parser.afterSlot, peek_essence]
  exact ite_map .rfl (fun _ => bind_map (advance_essence s) (h.arguments true (arity + 1)))
    fun _ => ite_map .rfl (fun _ => rfl) fun _ => rfl

theorem Same.arguments_succ {fuel : Nat} (h : Same limits fuel) (separated : Bool) (arity : Nat)
    (s : State) : Parser.arguments limits (fuel + 1) separated arity s.essence =
      (Parser.arguments limits (fuel + 1) separated arity s).map (Prod.map id State.essence) := by
  rw [Parser.arguments, Parser.arguments, peek_essence]
  refine ite_map .rfl (fun _ => ite_map .rfl (fun _ => rfl) fun _ => rfl) fun _ => ?_
  exact ite_map .rfl (fun _ => h.afterSlot arity (s.addLeaf .emptyArgument)) fun _ =>
    bind_map (h.expression s) (h.afterSlot arity)

theorem same (limits : Limits) (fuel : Nat) : Same limits fuel := by
  induction fuel with
  | zero => exact ⟨fun _ => rfl, fun _ => rfl, fun _ => rfl, fun _ _ _ => rfl⟩
  | succ fuel ih =>
    refine ⟨fun s => ?_, ih.chain_succ, ih.operand_succ, ih.arguments_succ⟩
    rw [expression, expression]
    exact bind_map (ih.operand s) ih.chain

/-- The tree of a run that is over. -/
def root (s : State) : Except SyntaxError Expr :=
  if !s.cursor.atEnd then .error .invalid
  else do
    let (root, s) ← s.pop
    if !s.subtrees.isEmpty then .error .leftoverOperands else return root.expr

theorem root_essence (s : State) : root s.essence = (root s).map id := by
  refine ite_map ?_ (fun _ => rfl) fun _ => bind_map (pop_essence s) fun r =>
    ite_map .rfl (fun _ => rfl) fun _ => rfl
  simp [State.essence, Token.Cursor.essence, Token.Cursor.atEnd]

/-- Where tokens stand and how separators are written does not matter. -/
theorem parse_map_essence (limits : Limits) (tokens : List Token) :
    parse limits (tokens.map Token.essence) = parse limits tokens := by
  have hinitial : State.initial (tokens.map Token.essence) = (State.initial tokens).essence := by
    unfold State.initial State.essence Token.Cursor.ofTokens Token.Cursor.essence
    rw [List.getLast?_map]
    cases tokens.getLast? <;> rfl
  have hmap : parse limits (tokens.map Token.essence) = (parse limits tokens).map id := by
    unfold parse
    rw [hinitial, List.isEmpty_map, List.length_map]
    exact ite_map .rfl (fun _ => rfl) fun _ =>
      bind_map ((same limits _).expression (.initial tokens)) root_essence
  rw [hmap]
  cases parse limits tokens <;> rfl

end

end Parser

/-! ## The passes -/

namespace Token

/-- What the passes see of a raw token: its essence, with its literal resolved. -/
def gist (locale : Locale) (token : Token) : Token :=
  (if token.kind = .operand ∧ token.subkind = .unspecified then resolveOperand locale token
    else token).essence

section

variable {locale : Locale} {token : Token}

theorem gist_of_resolved (h : token.kind = .operand → token.subkind ≠ .unspecified) :
    token.gist locale = token.essence := by
  rw [gist, if_neg fun hboth => h hboth.1 hboth.2]

theorem gist_operand (hkind : token.kind = .operand) (hsubkind : token.subkind = .unspecified) :
    token.gist locale = (resolveOperand locale token).essence := by
  rw [gist, if_pos ⟨hkind, hsubkind⟩]

theorem subkind_resolveOperand (locale : Locale) (token : Token) :
    (resolveOperand locale token).subkind ≠ .unspecified := by
  unfold resolveOperand
  split
  · simp
  · split <;> simp

@[simp] theorem kind_gist : (token.gist locale).kind = token.kind := by
  unfold gist
  split
  · exact kind_resolveOperand token
  · rfl

/-- A gist has the subkind of its token, unless it is the gist of an operand. -/
theorem subkind_gist (h : token.kind ≠ .operand) : (token.gist locale).subkind = token.subkind := by
  rw [gist_of_resolved fun hkind => absurd hkind h]
  rfl

theorem endsValue_gist : (token.gist locale).endsValue = token.endsValue := by
  by_cases h : token.kind = .operand
  · simp [endsValue, h]
  · simp [endsValue, closesBracket, closesCall, closesGroup, Token.is, subkind_gist h]

theorem startsValue_gist : (token.gist locale).startsValue = token.startsValue := by
  by_cases h : token.kind = .operand
  · simp [startsValue, h]
  · simp [startsValue, opensBracket, opensCall, opensGroup, Token.is, subkind_gist h]

theorem settleFrom_gist (previous : Option Token) (raws : List Token) :
    settleFrom (previous.map (gist locale)) (raws.map (gist locale)) =
      (settleFrom previous raws).map (gist locale) := by
  have hany : ∀ {test : Token → Bool}, (∀ token : Token, test (token.gist locale) = test token) →
      ∀ token : Option Token, (token.map (gist locale)).any test = token.any test := by
    intro test htest token
    cases token with
    | none => rfl
    | some token => exact htest token
  induction raws generalizing previous with
  | nil => rfl
  | cons token rest ih =>
    have hrest := ih (some token)
    rw [Option.map_some] at hrest
    rw [List.map_cons, settleFrom, settleFrom, kind_gist, hrest, List.head?_map,
      hany fun _ => endsValue_gist, hany fun _ => startsValue_gist]
    by_cases hkind : token.kind = .whitespace
    · have hgap : ¬ token.kind ≠ .whitespace := fun h => h hkind
      rw [if_neg hgap, if_neg hgap]
      split
      · rw [List.map_cons, gist_of_resolved (by simp [hkind]), gist_of_resolved (by simp)]
        simp [essence, hkind]
      · rfl
    · rw [if_pos hkind, if_pos hkind, List.map_cons]

theorem behindValue_essence (previous : Option Token) :
    behindValue (previous.map essence) = behindValue previous := by
  cases previous <;> rfl

theorem stripAt_essence (h : token.kind ≠ .argument) :
    stripAt token.essence = (stripAt token).essence := by
  obtain ⟨value, kind, subkind, start, stop⟩ := token
  have hkept : ∀ value start stop, essence ⟨value, kind, subkind, start, stop⟩ =
      ⟨value, kind, subkind, 0, 0⟩ := fun value start stop => by rw [essence, if_neg h]
  rw [hkept, stripAt_eq, stripAt_eq, hkept]

/-- The gist of a token is resolved as the token is. -/
theorem resolveOne_gist (previous : Option Token) :
    resolveOne .enUS (previous.map essence) (token.gist locale) =
      (resolveOne locale previous token).essence := by
  obtain ⟨value, kind, subkind, start, stop⟩ := token
  by_cases hoperand : kind = .operand
  · subst hoperand
    by_cases hsubkind : subkind = .unspecified
    · subst hsubkind
      rw [gist_operand rfl rfl]
      have hresolved := subkind_resolveOperand locale ⟨value, .operand, .unspecified, start, stop⟩
      have hkind : (resolveOperand locale ⟨value, .operand, .unspecified, start, stop⟩).kind =
          .operand := kind_resolveOperand _
      simp [resolveOne, hkind, hresolved]
    · rw [gist_of_resolved fun _ => hsubkind]
      simp [resolveOne, hsubkind]
  · rw [gist_of_resolved fun h => absurd h hoperand]
    cases kind with
    | operand => exact absurd rfl hoperand
    | infixOp =>
      simp only [resolveOne, resolveSign, behindValue_essence, essence, reduceCtorEq, if_false]
      split_ifs <;> first | rfl | contradiction
    | function => exact stripAt_essence (by simp)
    | _ => rfl

theorem resolveFrom_gist (previous : Option Token) (raws : List Token) :
    resolveFrom .enUS (previous.map essence) (raws.map (gist locale)) =
      (resolveFrom locale previous raws).map essence := by
  induction raws generalizing previous with
  | nil => rfl
  | cons token rest ih =>
    have hrest := ih (some (resolveOne locale previous token))
    rw [Option.map_some] at hrest
    rw [List.map_cons, resolveFrom, resolveFrom, List.map_cons, resolveOne_gist, hrest]

/-- The passes make of gists what they make of the raw tokens. -/
theorem normalize_map_gist (raws : List Token) :
    normalize .enUS (raws.map (gist locale)) = (normalize locale raws).map essence := by
  have hnoops : ∀ tokens : List Token,
      withoutNoops (tokens.map essence) = (withoutNoops tokens).map essence := by
    intro tokens
    exact List.filter_map
  have hsettled : settleGaps (raws.map (gist locale)) = (settleGaps raws).map (gist locale) :=
    settleFrom_gist none raws
  have hresolved : resolve .enUS ((settleGaps raws).map (gist locale)) =
      (resolve locale (settleGaps raws)).map essence := resolveFrom_gist none _
  rw [normalize, normalize, hsettled, hresolved, hnoops]

end

end Token

end SheetFormula
