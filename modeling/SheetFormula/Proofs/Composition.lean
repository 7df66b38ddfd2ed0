import Mathlib
import SheetFormula.Proofs.Framing
import SheetFormula.Proofs.Phrases
import SheetFormula.Proofs.Settling
import SheetFormula.Proofs.StackParser

/-!
# Formulas put together from formulas

Main statement: `Formula.means_composed`, that the texts of two formulas in parentheses can be operands
and arguments of a new one, whose expression is put together from theirs.

1. The grammar reads on to a token that is no operator: `Grammar.climb_append`.
2. White space and signs at either end of some tokens mean in parentheses what they mean alone:
   `Token.normalFrom_enclosed`.
3. With these, a group is read as what its formula means: `Token.writes_enclosed`.
-/

namespace SheetFormula

/-! ## In front of more tokens -/

namespace Grammar

open Token

variable {e : Expr} {tokens rest more : List Token}

/-- Whether no operator stands in front of some tokens. -/
def Closed (more : List Token) : Prop :=
  ∀ token ∈ more.head?, token.isPostfixOp = false ∧ token.isInfixOp = false

theorem postfixes_append (hmore : Closed more) (e : Expr) (tokens : List Token) :
    postfixes e (tokens ++ more) = ((postfixes e tokens).1, (postfixes e tokens).2 ++ more) := by
  induction tokens generalizing e with
  | nil =>
    cases more with
    | nil => rfl
    | cons token more =>
      show postfixes e (token :: more) = (e, token :: more)
      rw [postfixes, (hmore token rfl).1, if_neg Bool.false_ne_true]
  | cons token tokens ih =>
    rw [List.cons_append, postfixes, postfixes]
    split
    · exact ih _
    · rfl

theorem number_append (hmore : Closed more) (value : Number.Binary64) (tokens : List Token) :
    number value (tokens ++ more) = ((number value tokens).1, (number value tokens).2 ++ more) := by
  cases tokens with
  | nil =>
    cases more with
    | nil => rfl
    | cons token more =>
      show number value (token :: more) = (.number value, token :: more)
      rw [number, (hmore token rfl).1, if_neg Bool.false_ne_true]
  | cons token tokens =>
    rw [List.cons_append, number, number]
    split <;> rfl

/-- What is read is read in front of more tokens, too. -/
theorem appendRules (hmore : Closed more) : Rules
    (fun least tokens e rest => climb least (tokens ++ more) = some (e, rest ++ more))
    (fun least left tokens e rest => chain least left (tokens ++ more) = some (e, rest ++ more))
    (fun tokens e rest => operand (tokens ++ more) = some (e, rest ++ more))
    (fun token tokens e rest => primary token (tokens ++ more) = some (e, rest ++ more))
    (fun tokens args rest => arguments (tokens ++ more) = some (args, rest ++ more))
    (fun tokens args rest => slots (tokens ++ more) = some (args, rest ++ more))
    (fun tokens arg rest => slot (tokens ++ more) = some (arg, rest ++ more)) where
  climb ho hc := by
    rw [climb_eq, ho]
    exact hc
  chainEnd := chain_of_not_infix fun token ht => (hmore token ht).2
  chainStop {least left token rest} hstop := by
    by_cases hinfix : token.isInfixOp
    · obtain ⟨precedence, hless, hprecedence⟩ := hstop hinfix
      rw [List.cons_append, chain_cons hinfix, hprecedence, Option.bind_some, if_neg (by omega)]
    · refine chain_of_not_infix fun next hnext => ?_
      cases hnext
      simpa using hinfix
  chainStep hinfix hprecedence hle hr hc := by
    rw [List.cons_append, chain_cons hinfix, hprecedence, Option.bind_some, if_pos hle, hr]
    exact hc
  minus hprefix hvalue hc := by
    rw [List.cons_append, operand, if_pos hprefix, if_pos hvalue, hc]
    rfl
  operand {token rest e rest'} hprefix hp := by
    rw [List.cons_append, operand, hprefix, if_neg Bool.false_ne_true, hp]
    show some (postfixes e (rest' ++ more)) = _
    rw [postfixes_append hmore]
  number hnumber hvalue := by
    rw [primary, if_pos hnumber, hvalue, Option.map_some, number_append hmore]
  text h := by
    simp only [isText, Token.is, Bool.and_eq_true, beq_iff_eq] at h
    rw [primary]
    simp [isNumber, isText, Token.is, h]
  logical h := by
    simp only [isLogical, Token.is, Bool.and_eq_true, beq_iff_eq] at h
    rw [primary]
    simp [isNumber, isText, isLogical, Token.is, h]
  reference h := by
    simp only [isRange, Token.is, Bool.and_eq_true, beq_iff_eq] at h
    rw [primary]
    simp [isNumber, isText, isLogical, isRange, Token.is, h]
  group hopens hcloses hc := by
    rw [primary_of_group hopens, hc, Option.bind_some, List.cons_append, closeGroup, if_pos hcloses]
  call hopens ha := by
    rw [primary_of_call hopens, ha]
    rfl
  errorValue h := by
    simp only [isError, Token.is, Bool.and_eq_true, beq_iff_eq] at h
    rw [primary]
    simp [isNumber, isText, isLogical, isRange, opensGroup, opensCall, isError, Token.is, h]
  unknown h := by
    simp only [isUnknown, beq_iff_eq] at h
    rw [primary]
    simp [isNumber, isText, isLogical, isRange, opensGroup, opensCall, isError, isUnknown, Token.is,
      h]
  noArguments hcloses := by
    rw [List.cons_append, arguments, if_pos hcloses]
  someArguments hcloses hs := by
    rw [List.cons_append, arguments, hcloses, if_neg Bool.false_ne_true]
    exact hs
  slotsStep hseparates ha hs := by
    rw [slots_eq, ha, Option.bind_some, List.cons_append, afterSlot, if_pos hseparates, hs]
    rfl
  slotsEnd hcloses ha := by
    rw [slots_eq, ha, Option.bind_some, List.cons_append, afterSlot,
      Token.separatesArguments_of_closesCall hcloses, if_neg Bool.false_ne_true, if_pos hcloses]
  emptySlot h := by
    rw [List.cons_append, slot, if_pos h]
  fullSlot h hc := by
    rw [List.cons_append, slot, h, if_neg Bool.false_ne_true]
    exact hc

/-- All of what is an expression alone is read in front of tokens that go on with it nowhere. -/
theorem climb_append (h : Grammar.parse tokens = some e) (hmore : Closed more) :
    climb 0 (tokens ++ more) = some (e, more) := by
  unfold Grammar.parse at h
  split at h
  · rename_i e' hclimb
    cases h
    exact (appendRules hmore).of_climb hclimb
  · cases h

/-- A group is read as what stands in it. -/
theorem holds_enclosed {opener close : Token} (h : Grammar.parse tokens = some e)
    (hopens : opener.opensGroup) (hcloses : close.closesGroup) :
    Holds e (opener :: (tokens ++ [close])) := by
  have hkind : opener.kind = .subexpr ∧ close.kind = .subexpr :=
    ⟨(Token.is_iff.1 hopens).1, (Token.is_iff.1 hcloses).1⟩
  refine holds_of_primary (by simp [isPrefixOp, hkind]) fun rest => ?_
  have hclosed : Closed (close :: rest) := by
    rintro _ ⟨⟩
    simp [isPostfixOp, isInfixOp, hkind]
  rw [primary_of_group hopens, List.append_assoc, List.singleton_append, climb_append h hclosed,
    Option.bind_some, closeGroup, if_pos hcloses]

end Grammar

/-! ## Between parentheses -/

namespace Token

open Grammar

variable {previous resolved : Option Token} {close : Token} {raws back rest : List Token}

theorem settleFrom_congr {previous' : Option Token}
    (h : previous.any endsValue = previous'.any endsValue) :
    settleFrom previous raws = settleFrom previous' raws := by
  cases raws with
  | nil => rfl
  | cons token rest => rw [settleFrom, settleFrom, h]

/-- White space in front of what is no operand is dropped, as it is at the end. -/
theorem settleFrom_append (previous : Option Token) (raws : List Token)
    (h : back.head?.any startsValue = false) :
    ∃ previous', settleFrom previous (raws ++ back) =
      settleFrom previous raws ++ settleFrom previous' back := by
  induction raws generalizing previous with
  | nil => exact ⟨previous, rfl⟩
  | cons token raws ih =>
    obtain ⟨previous', hsettled⟩ := ih (some token)
    have hhead : (raws ++ back).head?.any startsValue = raws.head?.any startsValue := by
      cases raws with
      | nil => exact h
      | cons => rfl
    refine ⟨previous', ?_⟩
    rw [List.cons_append, settleFrom, settleFrom, hsettled, hhead]
    split
    · rfl
    · split <;> rfl

theorem resolveFrom_congr {locale : Locale} {resolved' : Option Token}
    (h : behindValue resolved = behindValue resolved') :
    resolveFrom locale resolved raws = resolveFrom locale resolved' raws := by
  cases raws with
  | nil => rfl
  | cons token rest =>
    have hone : resolveOne locale resolved token = resolveOne locale resolved' token := by
      unfold resolveOne resolveSign
      rw [h]
    rw [resolveFrom, resolveFrom, hone]

theorem resolveFrom_append (resolved : Option Token) (raws back : List Token) :
    ∃ resolved', resolveFrom .enUS resolved (raws ++ back) =
      resolveFrom .enUS resolved raws ++ resolveFrom .enUS resolved' back := by
  induction raws generalizing resolved with
  | nil => exact ⟨resolved, rfl⟩
  | cons token raws ih =>
    obtain ⟨resolved', hresolved⟩ := ih (some (resolveOne .enUS resolved token))
    refine ⟨resolved', ?_⟩
    rw [List.cons_append, resolveFrom, resolveFrom, hresolved]
    rfl

/-- Behind what is no operand and in front of what is none, the passes make of tokens what they make
of them alone. -/
theorem normalFrom_enclosed (hprevious : previous.any endsValue = false)
    (hplace : behindValue resolved = false) (hback : back.head?.any startsValue = false) :
    ∃ previous' resolved', normalFrom previous resolved (raws ++ back) =
      normalize .enUS raws ++ normalFrom previous' resolved' back := by
  obtain ⟨previous', hsettled⟩ := settleFrom_append previous raws hback
  obtain ⟨resolved', hresolved⟩ := resolveFrom_append resolved (settleFrom previous raws)
    (settleFrom previous' back)
  have hnone : settleFrom previous raws = settleGaps raws := settleFrom_congr hprevious
  have halone : resolveFrom .enUS resolved (settleGaps raws) = resolve .enUS (settleGaps raws) :=
    resolveFrom_congr hplace
  refine ⟨previous', resolved', ?_⟩
  unfold normalFrom
  rw [hsettled, hresolved, hnone, halone]
  exact List.filter_append ..

/-- A group is read as what stands in it means alone. -/
theorem writes_enclosed {opener : Token} {e : Expr} (hopens : opener.opensGroup)
    (hcloses : close.closesGroup) (h : Grammar.parse (normalize .enUS raws) = some e) :
    Writes 9 (opener :: (raws ++ [close])) (Holds e) where
  starts _ := by simp [startsValue, opensBracket, hopens]
  ends _ := by
    rw [← List.cons_append, List.getLast?_concat]
    simp [endsValue, closesBracket, hcloses]
  settles previous resolved _ := by
    have hkind : (opener.kind = .subexpr ∧ opener.subkind = .start) ∧
        close.kind = .subexpr ∧ close.subkind = .stop := ⟨Token.is_iff.1 hopens, Token.is_iff.1 hcloses⟩
    have hopener : resolvedBracket opener = opener := by simp [resolvedBracket, hkind]
    have hclose : resolvedBracket close = close := by simp [resolvedBracket, hkind]
    refine ⟨opener :: (normalize .enUS raws ++ [close]), close, close, ?_, ?_, fun rest => ?_,
      holds_enclosed h hopens hcloses⟩
    · rw [← List.cons_append, List.getLast?_concat]
    · simp [behindValue, closesBracket, hcloses]
    · obtain ⟨previous', resolved', hnormal⟩ : ∃ previous' resolved',
          normalFrom (some opener) (some opener) (raws ++ close :: rest) =
            normalize .enUS raws ++ normalFrom previous' resolved' (close :: rest) := normalFrom_enclosed
        (by simp [endsValue, closesBracket, closesCall, closesGroup, Token.is, hkind])
        (by simp [behindValue, closesBracket, closesCall, closesGroup, Token.is, isPostfixOp, hkind])
        (by simp [startsValue, opensBracket, opensCall, opensGroup, Token.is, hkind])
      rw [List.cons_append, normalFrom_bracket (.inl (by simp [opensBracket, hopens])), hopener,
        List.append_assoc, List.singleton_append, hnormal,
        normalFrom_bracket (.inr (by simp [closesBracket, hcloses])), hclose]
      simp

/-- The gist of a token depends on its essence. -/
theorem gist_essence (locale : Locale) (token : Token) :
    token.essence.gist locale = token.gist locale := by
  obtain ⟨value, kind, subkind, start, stop⟩ := token
  by_cases hoperand : kind = .operand ∧ subkind = .unspecified
  · obtain ⟨rfl, rfl⟩ := hoperand
    rw [gist_operand rfl rfl, gist_operand rfl rfl]
    unfold resolveOperand essence
    simp only [reduceCtorEq, if_false]
    split
    · rfl
    · split <;> rfl
  · have hresolved : kind = .operand → subkind ≠ .unspecified := fun h h' => hoperand ⟨h, h'⟩
    rw [gist_of_resolved hresolved, gist_of_resolved hresolved]
    unfold essence
    split <;> simp_all

theorem map_gist_of_essence {locale : Locale} {raws raws' : List Token}
    (h : raws.map essence = raws'.map essence) :
    raws.map (gist locale) = raws'.map (gist locale) := by
  have hgist : ∀ tokens : List Token, tokens.map (gist locale) =
      (tokens.map essence).map (gist locale) := by
    intro tokens
    rw [List.map_map]
    exact List.map_congr_left fun token _ => (gist_essence locale token).symm
  rw [hgist, h, ← hgist]

end Token

/-! ## The scan of a group -/

namespace Scan

open Token (gist)

variable {locale : Locale} {s : State} {rest : List Char} {f : String}

/-- The text of a formula behind its sign, between parentheses. -/
def enclosed (f : String) : List Char := '(' :: (body f.toList ++ [')'])

/-- The gists of the raw tokens of a formula. -/
def gists (locale : Locale) (f : String) : List Token :=
  (ofFormula locale f).tokens.toList.map (gist locale)

/-- The gists of the raw tokens of a formula in parentheses. -/
def enclosedGists (locale : Locale) (f : String) : List Token :=
  ⟨"", .subexpr, .start, 0, 0⟩ :: (gists locale f ++ [⟨"", .subexpr, .stop, 0, 0⟩])

theorem passes_enclosed (hfault : (ofFormula locale f).fault = none) (hidle : Idle s) :
    Passes locale s (enclosed f) rest fun tokens =>
      tokens.map (gist locale) = enclosedGists locale f := by
  have hinner : ∀ (opening : Token) (s' : State), opening.opensGroup → Idle s' →
      s'.openings = .bracket opening :: s.openings →
      Passes locale s' (body f.toList) (')' :: rest) fun tokens =>
        tokens.map (gist locale) = gists locale f := by
    intro opening s' hopening hidle' hopenings
    have hplace : s'.separatesHere = false := by
      rw [← separates_enUS, separates_group hopening hopenings]
    exact (passes_body hfault hidle' hplace).imp fun tokens => Token.map_gist_of_essence
  refine (passes_group hidle hinner).imp ?_
  rintro _ ⟨opening, inner, close, rfl, hopening, hgists, hclose⟩
  rw [List.map_cons, List.map_append, List.map_singleton, hgists,
    gist_of_is hopening.1 (by decide), gist_of_is hclose.1 (by decide), hopening.2, hclose.2]
  rfl

theorem writes_enclosedGists {e : Expr}
    (h : Grammar.parse (Token.normalize .enUS (gists locale f)) = some e) :
    Token.Writes 9 (enclosedGists locale f) (Grammar.Holds e) :=
  Token.writes_enclosed rfl rfl h

end Scan

namespace Formula

open Scan Token Grammar

/-- What stands in a formula behind its sign. -/
def body (f : String) : String := Text.slice f (leadSize f) f.utf8ByteSize

/-- Whether a formula means an expression, under all limits that leave room for it. -/
def Means (locale : Locale) (f : String) (e : Expr) : Prop :=
  ∀ (limits : Parser.Limits) (strict : Bool), (tokens locale f).length ≤ limits.depth →
    e.height ≤ limits.height → parse ⟨locale, limits, strict⟩ f = .ok e

section

variable {locale : Locale} {limits limits' : Parser.Limits} {f g : String} {left right : Expr}

theorem toList_body (f : String) : (body f).toList = Scan.body f.toList := by
  obtain ⟨lead, htext, hsize⟩ := lead_of_formula f.toList
  have hcovers : Covers f.toList (leadSize f) f.utf8ByteSize (Scan.body f.toList) := by
    refine ⟨lead, [], by rw [List.append_nil, ← htext], hsize.symm, ?_⟩
    rw [← String.utf8Len_append, ← htext, String.utf8Len_toList]
  rw [body, slice_of_covers hcovers, String.toList_ofList]

/-- What a formula means is told by the gists of its raw tokens. -/
theorem grammar_of_parse (h : parse ⟨locale, limits, true⟩ f = .ok left) :
    (ofFormula locale f).fault = none ∧
      Grammar.parse (normalize .enUS (gists locale f)) = some left := by
  obtain ⟨hfault, -⟩ := tokens_of_parse h
  refine ⟨hfault, ?_⟩
  rw [parse_eq_of_gists true hfault rfl] at h
  cases hparse : Parser.parse limits (normalize .enUS (gists locale f)) with
  | error cause =>
    rw [gists] at hparse
    rw [hparse] at h
    cases h
  | ok e =>
    have hgists := hparse
    rw [gists] at hparse
    rw [hparse] at h
    cases h
    exact Parser.grammar_of_parse hgists

/-- A text whose raw tokens are read as an expression means it. -/
theorem means_of_passes {text : String} {raws : List Token} {e : Expr} {level level' : Nat}
    (hpasses : Passes locale (.initial (leadSize ("=" ++ text))) text.toList [] fun tokens =>
      tokens.map (gist locale) = raws)
    (hwrites : Writes level raws (Climbs level' e)) : Means locale ("=" ++ text) e := by
  obtain ⟨hfault, hgists⟩ := ofFormula_of_passes hpasses
  intro limits strict hdepth hheight
  have hlength : (normalize .enUS raws).length = (tokens locale ("=" ++ text)).length := by
    rw [← hgists, normalize_map_gist, List.length_map]
    rfl
  rw [parse_eq_of_gists strict hfault hgists,
    Parser.parse_of_grammar (parse_of_writes hwrites) (by omega) hheight]
  rfl

theorem means_of_holds {text : String} {raws : List Token} {e : Expr} {level : Nat}
    (hpasses : Passes locale (.initial (leadSize ("=" ++ text))) text.toList [] fun tokens =>
      tokens.map (gist locale) = raws)
    (hwrites : Writes level raws (Holds e)) : Means locale ("=" ++ text) e :=
  means_of_passes hpasses (hwrites.imp fun tokens hholds => (climbs_of_holds hholds : Climbs 9 e tokens))

theorem means_binary {op : String} {precedence : Nat}
    (hf : parse ⟨locale, limits, true⟩ f = .ok left) (hg : parse ⟨locale, limits', true⟩ g = .ok right)
    (hop : Operator.binaryPrecedence? op = some precedence) :
    Means locale ("=" ++ ("(" ++ body f ++ ")" ++ op ++ "(" ++ body g ++ ")"))
      (.binary op left right) := by
  obtain ⟨hfault, hgrammar⟩ := grammar_of_parse hf
  obtain ⟨hfault', hgrammar'⟩ := grammar_of_parse hg
  have htext : ("(" ++ body f ++ ")" ++ op ++ "(" ++ body g ++ ")").toList =
      enclosed f ++ (op.toList ++ enclosed g) := by
    simp [enclosed, toList_body]
  have hoperator : ∀ s', Idle s' → s'.openings = [] → Passes locale s' op.toList (enclosed g ++ [])
      fun tokens => ∃ token, tokens = [token] ∧ SpellsOperator op token := fun s' hidle hopenings =>
    passes_operator hop hidle (fun _ _ => by simp [State.separatesHere, hopenings])
      fun c hc => by cases hc; decide
  have hpasses : Passes locale (.initial (leadSize ("=" ++ ("(" ++ body f ++ ")" ++ op ++ "(" ++
      body g ++ ")")))) (enclosed f ++ (op.toList ++ enclosed g)) [] fun tokens =>
        tokens.map (gist locale) = enclosedGists locale f ++ ⟨op, if op = " " then .whitespace
          else .infixOp, operatorSubkind op, 0, 0⟩ :: enclosedGists locale g := by
    refine ((passes_enclosed hfault ⟨rfl, rfl⟩).append fun s' hidle hopenings =>
      (hoperator s' hidle hopenings).append fun s'' hidle' _ =>
        passes_enclosed hfault' hidle').imp ?_
    rintro _ ⟨front, _, rfl, hfront, _, back, rfl, ⟨sign, rfl, hsign⟩, hback⟩
    rw [List.map_append, List.map_append, List.map_singleton, hfront, hback, gist_operator hsign]
    rfl
  rw [← htext] at hpasses
  have hbound : precedence < 9 := Nat.lt_succ_of_le (binaryPrecedence_bound hop).1
  have hclimbs : ∀ (sign : Token) (tokens tokens' : List Token), sign.isInfixOp → sign.value = op →
      Holds left tokens → Holds right tokens' →
      Climbs precedence (.binary op left right) (tokens ++ sign :: tokens') := by
    intro sign tokens tokens' hsign hvalue hleft hright
    rw [← hvalue] at hop ⊢
    exact climbs_binary hsign hop (climbs_of_holds hleft) (climbs_of_holds hright)
      (Nat.le_of_lt hbound) hbound
  exact means_of_passes hpasses (writes_binary hop ⟨rfl, rfl, rfl⟩ (writes_enclosedGists hgrammar)
    (writes_enclosedGists hgrammar') (Nat.le_of_lt hbound) hbound hclimbs)

theorem means_minus (hf : parse ⟨locale, limits, true⟩ f = .ok left) :
    Means locale ("=" ++ ("-(" ++ body f ++ ")")) (.unary "-" left) := by
  obtain ⟨hfault, hgrammar⟩ := grammar_of_parse hf
  have htext : ("-(" ++ body f ++ ")").toList = ['-'] ++ enclosed f := by
    simp [enclosed, toList_body]
  have hpasses : Passes locale (.initial (leadSize ("=" ++ ("-(" ++ body f ++ ")"))))
      (['-'] ++ enclosed f) [] fun tokens => tokens.map (gist locale) =
        ⟨"-", .infixOp, .unspecified, 0, 0⟩ :: enclosedGists locale f := by
    have hsign : Passes locale (.initial (leadSize ("=" ++ ("-(" ++ body f ++ ")")))) ['-']
        (enclosed f ++ []) fun tokens => ∃ start stop,
          tokens = [⟨"-", .infixOp, .unspecified, start, stop⟩] :=
      passes_sign ⟨rfl, rfl⟩ (by decide) rfl
    refine (hsign.append fun s' hidle _ => passes_enclosed hfault hidle).imp ?_
    rintro _ ⟨_, back, rfl, ⟨start, stop, rfl⟩, hback⟩
    rw [List.map_append, hback]
    rfl
  rw [← htext] at hpasses
  exact means_of_passes hpasses (writes_minus (writes_enclosedGists hgrammar) ⟨rfl, rfl, rfl⟩
    fun sign tokens hsign hvalue hholds =>
      climbs_minus (climbs_of_holds hholds) (Nat.le_refl _) hsign hvalue)

theorem means_percent (hf : parse ⟨locale, limits, true⟩ f = .ok left) :
    Means locale ("=" ++ ("(" ++ body f ++ ")%")) (.unary "%" left) := by
  obtain ⟨hfault, hgrammar⟩ := grammar_of_parse hf
  have htext : ("(" ++ body f ++ ")%").toList = enclosed f ++ ['%'] := by
    simp [enclosed, toList_body]
  have hpasses : Passes locale (.initial (leadSize ("=" ++ ("(" ++ body f ++ ")%"))))
      (enclosed f ++ ['%']) [] fun tokens => tokens.map (gist locale) =
        enclosedGists locale f ++ [⟨"%", .postfixOp, .unspecified, 0, 0⟩] := by
    refine ((passes_enclosed hfault ⟨rfl, rfl⟩).append fun s' hidle _ => passes_percent hidle).imp ?_
    rintro _ ⟨front, _, rfl, hfront, start, stop, rfl⟩
    rw [List.map_append, hfront]
    rfl
  rw [← htext] at hpasses
  exact means_of_holds hpasses (writes_percent (writes_enclosedGists hgrammar) rfl
    fun tokens hholds => holds_percent hholds rfl)

theorem means_call (hf : parse ⟨locale, limits, true⟩ f = .ok left)
    (hg : parse ⟨locale, limits', true⟩ g = .ok right) (name : Letters) :
    Means locale ("=" ++ (String.ofList name.chars ++ "((" ++ body f ++ ")" ++
      String.singleton locale.argumentSeparator ++ "(" ++ body g ++ "))"))
      (.call (String.ofList name.chars) [left, right]) := by
  obtain ⟨hfault, hgrammar⟩ := grammar_of_parse hf
  obtain ⟨hfault', hgrammar'⟩ := grammar_of_parse hg
  have htext : (String.ofList name.chars ++ "((" ++ body f ++ ")" ++
      String.singleton locale.argumentSeparator ++ "(" ++ body g ++ "))").toList =
      (String.ofList name.chars).toList ++ ['('] ++
        ((enclosed f ++ ([locale.argumentSeparator] ++ enclosed g)) ++ [')']) := by
    simp [enclosed, toList_body]
  have hinner : ∀ (opening : Token) (s' : State), opening.opensCall → Idle s' →
      s'.openings = [.bracket opening] →
      Passes locale s' (enclosed f ++ ([locale.argumentSeparator] ++ enclosed g)) [')'] fun tokens =>
        tokens.map (gist locale) = enclosedGists locale f ++
          ⟨"", .argument, .unspecified, 0, 0⟩ :: enclosedGists locale g := by
    intro opening s hopening hidle hopenings
    have hplace : separates locale s.openings := separates_call hopening hopenings
    refine ((passes_enclosed hfault hidle).append fun s' hidle' hopenings' =>
      (passes_separator hidle' (hopenings' ▸ hplace)).append fun s'' hidle'' _ =>
        passes_enclosed hfault' hidle'').imp ?_
    rintro _ ⟨front, _, rfl, hfront, _, back, rfl, ⟨start, stop, rfl⟩, hback⟩
    rw [List.map_append, List.map_append, hfront, hback]
    rfl
  have hpasses : Passes locale (.initial (leadSize ("=" ++ (String.ofList name.chars ++ "((" ++
      body f ++ ")" ++ String.singleton locale.argumentSeparator ++ "(" ++ body g ++ "))"))))
      ((String.ofList name.chars).toList ++ ['('] ++
        ((enclosed f ++ ([locale.argumentSeparator] ++ enclosed g)) ++ [')'])) [] fun tokens =>
      tokens.map (gist locale) = ⟨String.ofList name.chars, .function, .start, 0, 0⟩ ::
        ((enclosedGists locale f ++ ⟨"", .argument, .unspecified, 0, 0⟩ :: enclosedGists locale g) ++
          [⟨"", .function, .stop, 0, 0⟩]) := by
    refine (passes_call ⟨rfl, rfl⟩ name.word hinner).imp ?_
    rintro _ ⟨opening, inner, close, rfl, hopening, hgists, hclose⟩
    rw [List.map_cons, List.map_append, List.map_singleton, hgists,
      gist_of_is hopening.1 (by decide), gist_of_is hclose.1 (by decide), hopening.2, hclose.2]
  rw [← htext] at hpasses
  have hslot : ∀ {f : String} {e : Expr}, Grammar.parse (normalize .enUS (gists locale f)) = some e →
      Settles (enclosedGists locale f) (FillsSlot e) := fun h =>
    (writes_enclosedGists h).settled.imp fun tokens hholds =>
      .inr ⟨9, climbs_of_holds hholds⟩
  have hname : withoutAt (String.ofList name.chars) = String.ofList name.chars := by
    refine withoutAt_of_not_at fun rest hrest => ?_
    rw [String.toList_ofList] at hrest
    have halpha := name.isAlpha '@' (by simp [hrest])
    cases halpha
  have hslots : ∀ slot ∈ [(left, enclosedGists locale f), (right, enclosedGists locale g)],
      Settles slot.2 (FillsSlot slot.1) := by
    simpa using ⟨hslot hgrammar, hslot hgrammar'⟩
  have hwrites : ∀ opener : Token, opener.opensCall → opener.value = String.ofList name.chars →
      Writes 9 (opener :: ((enclosedGists locale f ++
        ⟨"", .argument, .unspecified, 0, 0⟩ :: enclosedGists locale g) ++ [⟨"", .function, .stop, 0, 0⟩]))
        (Holds (.call (String.ofList name.chars) [left, right])) := fun opener hopens hvalue =>
    writes_call hopens (hvalue ▸ hname) rfl (by simp) hslots
      ⟨⟨"", .argument, .unspecified, 0, 0⟩, enclosedGists locale g, rfl, rfl, rfl⟩
  exact means_of_holds hpasses (hwrites _ rfl rfl)

/-- Formulas in parentheses are the operands of every operator and the arguments of every call. -/
theorem means_composed (hf : parse ⟨locale, limits, true⟩ f = .ok left)
    (hg : parse ⟨locale, limits', true⟩ g = .ok right) :
    (∀ op precedence, Operator.binaryPrecedence? op = some precedence →
      Means locale ("=" ++ ("(" ++ body f ++ ")" ++ op ++ "(" ++ body g ++ ")"))
        (.binary op left right)) ∧
    Means locale ("=" ++ ("-(" ++ body f ++ ")")) (.unary "-" left) ∧
    Means locale ("=" ++ ("(" ++ body f ++ ")%")) (.unary "%" left) ∧
    ∀ name : Letters,
      Means locale ("=" ++ (String.ofList name.chars ++ "((" ++ body f ++ ")" ++
        String.singleton locale.argumentSeparator ++ "(" ++ body g ++ "))"))
        (.call (String.ofList name.chars) [left, right]) :=
  ⟨fun _ _ hop => means_binary hf hg hop, means_minus hf, means_percent hf, means_call hf hg⟩

/-- A union in parentheses is one argument, and a sign behind the separator no operator. -/
theorem means_composed_call :
    parse ⟨.enUS, .standard, true⟩ "=A1,B1" =
      .ok (.binary "," (.reference "A1") (.reference "B1")) ∧
    parse ⟨.enUS, .standard, true⟩ "=-C1" = .ok (.unary "-" (.reference "C1")) ∧
    parse ⟨.enUS, .standard, false⟩ "=F((A1,B1),(-C1))" =
      .ok (.call "F" [.binary "," (.reference "A1") (.reference "B1"),
        .unary "-" (.reference "C1")]) := by
  have hunion : ofFormula .enUS "=A1,B1" = ⟨#[⟨"A1", .operand, .unspecified, 1, 3⟩,
      ⟨",", .infixOp, .union, 3, 4⟩, ⟨"B1", .operand, .unspecified, 4, 6⟩], [], 6, "", 4, .ordinary,
      none⟩ := by cbv
  have hminus : ofFormula .enUS "=-C1" = ⟨#[⟨"-", .infixOp, .unspecified, 1, 2⟩,
      ⟨"C1", .operand, .unspecified, 2, 4⟩], [], 4, "", 2, .ordinary, none⟩ := by cbv
  have hf : parse ⟨.enUS, .standard, true⟩ "=A1,B1" =
      .ok (.binary "," (.reference "A1") (.reference "B1")) := by
    rw [parse_of_scan true hunion rfl]
    rfl
  have hg : parse ⟨.enUS, .standard, true⟩ "=-C1" = .ok (.unary "-" (.reference "C1")) := by
    rw [parse_of_scan true hminus rfl]
    rfl
  have hbody : body "=A1,B1" = "A1,B1" ∧ body "=-C1" = "-C1" := by
    constructor <;> rw [← String.toList_inj, toList_body] <;> rfl
  have htext : "=" ++ (String.ofList ['F'] ++ "((" ++ body "=A1,B1" ++ ")" ++
      String.singleton Locale.enUS.argumentSeparator ++ "(" ++ body "=-C1" ++ "))") =
      "=F((A1,B1),(-C1))" := by
    rw [hbody.1, hbody.2]
    decide
  have hcall := (means_composed hf hg).2.2.2 ⟨['F'], by decide, List.all_eq_true.1 rfl⟩
  rw [htext] at hcall
  have hlength : (tokens .enUS "=F((A1,B1),(-C1))").length ≤ Parser.Limits.standard.depth := by
    have hscan : (ofFormula .enUS "=F((A1,B1),(-C1))").tokens =
        #[⟨"F", .function, .start, 1, 3⟩, ⟨"", .subexpr, .start, 3, 4⟩,
          ⟨"A1", .operand, .unspecified, 4, 6⟩, ⟨",", .infixOp, .union, 6, 7⟩,
          ⟨"B1", .operand, .unspecified, 7, 9⟩, ⟨"", .subexpr, .stop, 9, 10⟩,
          ⟨",", .argument, .unspecified, 10, 11⟩, ⟨"", .subexpr, .start, 11, 12⟩,
          ⟨"-", .infixOp, .unspecified, 12, 13⟩, ⟨"C1", .operand, .unspecified, 13, 15⟩,
          ⟨"", .subexpr, .stop, 15, 16⟩, ⟨"", .function, .stop, 16, 17⟩] := by cbv
    rw [tokens, hscan]
    decide
  exact ⟨hf, hg, hcall .standard false hlength (by decide)⟩

end

end Formula

end SheetFormula
