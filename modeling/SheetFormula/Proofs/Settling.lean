import SheetFormula.Proofs.Reading
import SheetFormula.Proofs.Spelling

/-!
# What the passes leave to read

How the passes over raw tokens and the grammar behind them read an expression from its parts.

1. `Writes` says what the passes make of raw tokens wherever an operand can start, and what an
   intersection in front of them or behind them needs.
2. `writes_leaf`, `writes_minus`, `writes_percent`, `writes_binary`, `writes_bracket` and `writes_call`
   put raw tokens together; what they are read as is put together by the statements on `Climbs` and
   `Holds`.
-/

namespace SheetFormula

namespace Token

open Scan (SpellsOperator)
open Grammar

/-! ## Passes over raw tokens -/

/-- What the passes make of raw tokens behind the raw token `previous`, which has become
`resolved`. -/
def normalFrom (previous resolved : Option Token) (raws : List Token) : List Token :=
  withoutNoops (resolveFrom .enUS resolved (settleFrom previous raws))

variable {previous resolved : Option Token} {raw token : Token} {raws rest : List Token}

theorem normalFrom_cons (hkind : raw.kind ≠ .whitespace)
    (hresolved : resolveOne .enUS resolved raw = token) (hnoop : token.kind ≠ .noop) :
    normalFrom previous resolved (raw :: rest) =
      token :: normalFrom (some raw) (some token) rest := normal_cons hkind hresolved hnoop

/-- White space between two operands becomes an operator. -/
theorem normalFrom_gap (hkind : raw.kind = .whitespace) (hvalue : raw.value = " ")
    (hprevious : previous.any endsValue) (hnext : rest.head?.any startsValue) :
    normalFrom previous resolved (raw :: rest) =
      { raw with kind := .infixOp, subkind := .intersect } :: normalFrom (some raw)
        (some { raw with kind := .infixOp, subkind := .intersect }) rest :=
  normal_gap hkind hvalue hprevious hnext

/-- What the passes make of raw tokens, wherever an operand can start. -/
def Settles (raws : List Token) (Good : List Token → Prop) : Prop :=
  ∀ previous resolved, behindValue resolved = false → ∃ tokens previous' resolved',
    (∀ rest, normalFrom previous resolved (raws ++ rest) =
      tokens ++ normalFrom previous' resolved' rest) ∧ Good tokens

/-- The raw tokens of an expression. An intersection can stand in front of it and behind it if it
binds tightly enough. -/
structure Writes (level : Nat) (raws : List Token) (Good : List Token → Prop) : Prop where
  starts : 8 < level → raws.head?.any startsValue
  ends : 8 ≤ level → raws.getLast?.any endsValue
  settles : ∀ previous resolved, behindValue resolved = false → ∃ tokens final last,
    raws.getLast? = some final ∧ behindValue (some last) ∧
      (∀ rest, normalFrom previous resolved (raws ++ rest) =
        tokens ++ normalFrom (some final) (some last) rest) ∧ Good tokens

variable {level level' precedence : Nat} {sign opener close : Token} {front back : List Token}
  {Good Good' : List Token → Prop}

theorem Writes.imp (h : Writes level raws Good) (himp : ∀ tokens, Good tokens → Good' tokens) :
    Writes level raws Good' where
  starts := h.starts
  ends := h.ends
  settles previous resolved hplace := by
    obtain ⟨tokens, final, last, hfinal, hlast, hnormal, hgood⟩ := h.settles previous resolved hplace
    exact ⟨tokens, final, last, hfinal, hlast, hnormal, himp tokens hgood⟩

theorem Writes.settled (h : Writes level raws Good) : Settles raws Good := by
  intro previous resolved hplace
  obtain ⟨tokens, final, last, -, -, hnormal, hgood⟩ := h.settles previous resolved hplace
  exact ⟨tokens, some final, some last, hnormal, hgood⟩

theorem writes_operand (hkind : raw.kind = .operand)
    (hresolved : ∀ resolved, resolveOne .enUS resolved raw = token) (hgood : Good [token]) :
    Writes 9 [raw] Good where
  starts _ := by simp [startsValue, hkind]
  ends _ := by simp [endsValue, hkind]
  settles previous resolved _ := by
    have htoken : token.kind = .operand := by
      rw [← hresolved none, kind_resolveOne (by simp [hkind]), hkind]
    refine ⟨[token], raw, token, rfl, by simp [behindValue, htoken], fun rest => ?_, hgood⟩
    exact normalFrom_cons (by simp [hkind]) (hresolved resolved) (by simp [htoken])

/-! ### Brackets -/

/-- What a bracket is resolved to. -/
def resolvedBracket (token : Token) : Token :=
  if token.kind = .function then { token with value := withoutAt token.value } else token

theorem resolvedBracket_kind (token : Token) : (resolvedBracket token).kind = token.kind := by
  unfold resolvedBracket
  split <;> rfl

theorem resolvedBracket_subkind (token : Token) :
    (resolvedBracket token).subkind = token.subkind := by
  unfold resolvedBracket
  split <;> rfl

theorem resolvedBracket_is (token : Token) (kind : Kind) (subkind : Subkind) :
    (resolvedBracket token).is kind subkind = token.is kind subkind := by
  rw [Token.is, resolvedBracket_kind, resolvedBracket_subkind]
  rfl

theorem resolveOne_bracket (h : token.kind = .function ∨ token.kind = .subexpr) :
    resolveOne .enUS resolved token = resolvedBracket token := by
  obtain ⟨value, kind, subkind, start, stop⟩ := token
  rcases h with h | h
  · replace h : kind = .function := h
    subst h
    exact resolveOne_function resolved value subkind start stop
  · replace h : kind = .subexpr := h
    subst h
    rfl

theorem kind_of_bracket (h : token.opensBracket ∨ token.closesBracket) :
    token.kind = .function ∨ token.kind = .subexpr := by
  simp only [opensBracket, closesBracket, opensCall, opensGroup, closesCall, closesGroup, Token.is,
    Bool.or_eq_true, Bool.and_eq_true, beq_iff_eq] at h
  rcases h with (h | h) | (h | h)
  · exact .inl h.1
  · exact .inr h.1
  · exact .inl h.1
  · exact .inr h.1

theorem normalFrom_bracket (h : token.opensBracket ∨ token.closesBracket) :
    normalFrom previous resolved (token :: rest) =
      resolvedBracket token :: normalFrom (some token) (some (resolvedBracket token)) rest := by
  have hkind := kind_of_bracket h
  refine normalFrom_cons ?_ (resolveOne_bracket hkind) ?_
  · rcases hkind with h | h <;> simp [h]
  · rw [resolvedBracket_kind]
    rcases hkind with h | h <;> simp [h]

theorem writes_bracket (hopens : opener.opensBracket) (hcloses : close.closesBracket)
    (hinner : Settles raws Good) (hgood : ∀ tokens, Good tokens →
      Good' (resolvedBracket opener :: (tokens ++ [resolvedBracket close]))) :
    Writes 9 (opener :: (raws ++ [close])) Good' where
  starts _ := by simp [startsValue, hopens]
  ends _ := by
    rw [← List.cons_append, List.getLast?_concat]
    simp [endsValue, hcloses]
  settles previous resolved _ := by
    have hbehind : behindValue (some (resolvedBracket opener)) = false := by
      simp only [opensBracket, opensCall, opensGroup, Token.is, Bool.or_eq_true, Bool.and_eq_true,
        beq_iff_eq] at hopens
      rcases hopens with ⟨hkind, hsubkind⟩ | ⟨hkind, hsubkind⟩ <;>
        simp [behindValue, closesBracket, closesCall, closesGroup, Token.is, isPostfixOp,
          resolvedBracket_kind, resolvedBracket_subkind, hkind, hsubkind]
    obtain ⟨tokens, previous', resolved', hnormal, htokens⟩ := hinner (some opener) _ hbehind
    refine ⟨_, close, resolvedBracket close, ?_, ?_, fun rest => ?_, hgood tokens htokens⟩
    · rw [← List.cons_append, List.getLast?_concat]
    · have hclosed : (resolvedBracket close).closesBracket := by
        rw [closesBracket, closesCall, closesGroup, resolvedBracket_is, resolvedBracket_is]
        exact hcloses
      simp [behindValue, hclosed]
    · rw [List.cons_append, normalFrom_bracket (.inl hopens), List.append_assoc, hnormal,
        List.singleton_append, normalFrom_bracket (.inr hcloses)]
      simp

/-! ### Operators -/

theorem getLast?_append_of_some {final : Token} (h : back.getLast? = some final) :
    (front ++ back).getLast? = some final := by
  rw [List.getLast?_append, h]
  rfl

theorem writes_minus (h : Writes level raws Good) (hsign : SpellsOperator "-" sign)
    (hgood : ∀ sign' tokens, sign'.isPrefixOp → sign'.value = "-" → Good tokens →
      Good' (sign' :: tokens)) : Writes Operator.prefixPrecedence (sign :: raws) Good' where
  starts hlevel := absurd hlevel (by decide)
  ends hlevel := absurd hlevel (by decide)
  settles previous resolved hplace := by
    have hkind : sign.kind = .infixOp := hsign.kind
    have hresolved : resolveOne .enUS resolved sign = { sign with kind := .prefixOp } := by
      simp [resolveOne, resolveSign, hkind, hsign.value, hplace]
    have hbehind : behindValue (some { sign with kind := .prefixOp }) = false := by
      simp [behindValue, closesBracket, closesCall, closesGroup, Token.is, isPostfixOp]
    obtain ⟨tokens, final, last, hfinal, hlast, hnormal, htokens⟩ :=
      h.settles (some sign) _ hbehind
    have hfinal' : ([sign] ++ raws).getLast? = some final := getLast?_append_of_some hfinal
    refine ⟨{ sign with kind := .prefixOp } :: tokens, final, last, hfinal', hlast,
      fun rest => ?_, hgood _ tokens rfl hsign.value htokens⟩
    rw [List.cons_append, normalFrom_cons (by simp [hkind]) hresolved (by simp), hnormal]
    rfl

theorem writes_percent (h : Writes level raws Good) (hsign : sign.isPostfixOp)
    (hgood : ∀ tokens, Good tokens → Good' (tokens ++ [sign])) :
    Writes 6 (raws ++ [sign]) Good' where
  starts hlevel := absurd hlevel (by decide)
  ends hlevel := absurd hlevel (by decide)
  settles previous resolved hplace := by
    have hkind : sign.kind = .postfixOp := by simpa [isPostfixOp] using hsign
    obtain ⟨tokens, final, last, -, -, hnormal, htokens⟩ := h.settles previous resolved hplace
    refine ⟨tokens ++ [sign], sign, sign, List.getLast?_concat, by simp [behindValue, hsign],
      fun rest => ?_, hgood tokens htokens⟩
    have hresolved : resolveOne .enUS (some last) sign = sign := by simp [resolveOne, hkind]
    rw [List.append_assoc, hnormal, List.singleton_append,
      normalFrom_cons (by simp [hkind]) hresolved (by simp [hkind])]
    simp

/-- A binary operator behind a value. An intersection needs a value in front of it as well. -/
theorem normalFrom_operator {op : String} (hsign : SpellsOperator op sign)
    (hplace : behindValue resolved) (hvalues : op = " " → previous.any endsValue) :
    ∃ sign', sign'.isInfixOp ∧ sign'.value = op ∧ ∀ rest : List Token,
      (op = " " → rest.head?.any startsValue) →
      normalFrom previous resolved (sign :: rest) =
        sign' :: normalFrom (some sign) (some sign') rest := by
  obtain ⟨hvalue, hkind, -⟩ := hsign
  by_cases hspace : op = " "
  · rw [if_pos hspace] at hkind
    exact ⟨{ sign with kind := .infixOp, subkind := .intersect }, rfl, hvalue, fun rest hnext =>
      normalFrom_gap hkind (hvalue.trans hspace) (hvalues hspace) (hnext hspace)⟩
  · rw [if_neg hspace] at hkind
    have hresolved : (resolveOne .enUS resolved sign).kind = .infixOp ∧
        (resolveOne .enUS resolved sign).value = op := by
      unfold resolveOne resolveSign
      simp only [hkind, hplace, if_true]
      split_ifs <;> exact ⟨by simp [hkind], hvalue⟩
    exact ⟨_, by simp [isInfixOp, hresolved.1], hresolved.2, fun rest _ =>
      normalFrom_cons (by simp [hkind]) rfl (by simp [hresolved.1])⟩

theorem writes_binary {op : String} (hop : Operator.binaryPrecedence? op = some precedence)
    (hsign : SpellsOperator op sign) (hfront : Writes level front Good)
    (hback : Writes level' back Good') (hlevel : precedence ≤ level)
    (hlevel' : precedence < level') {Both : List Token → Prop}
    (hgood : ∀ sign' tokens tokens', sign'.isInfixOp → sign'.value = op → Good tokens →
      Good' tokens' → Both (tokens ++ sign' :: tokens')) :
    Writes precedence (front ++ sign :: back) Both := by
  have hspace : op = " " → precedence = 8 := by
    rintro rfl
    exact (Option.some.inj hop).symm
  have hbound : precedence ≤ 8 := (Grammar.binaryPrecedence_bound hop).1
  refine ⟨fun h => absurd h (by omega), fun h => ?_, fun previous resolved hplace => ?_⟩
  · have hends := hback.ends (by omega)
    obtain ⟨final, hfinal, hvalue⟩ := (Option.any_eq_true _ _).1 hends
    have hlast : (front ++ [sign] ++ back).getLast? = some final := getLast?_append_of_some hfinal
    rw [List.append_assoc] at hlast
    rw [show front ++ sign :: back = front ++ ([sign] ++ back) from rfl, hlast]
    exact hvalue
  · obtain ⟨tokens, final, last, hfinal, hlast, hnormal, htokens⟩ :=
      hfront.settles previous resolved hplace
    have hvalues : op = " " → (some final).any endsValue := by
      intro heq
      rw [← hfinal]
      exact hfront.ends (by have := hspace heq; omega)
    obtain ⟨sign', hbinary, hvalue, hoperator⟩ := normalFrom_operator hsign hlast hvalues
    have hbehind : behindValue (some sign') = false := by
      have hkind : sign'.kind = .infixOp := by simpa [isInfixOp] using hbinary
      simp [behindValue, closesBracket, closesCall, closesGroup, Token.is, isPostfixOp, hkind]
    obtain ⟨tokens', final', last', hfinal', hlast', hnormal', htokens'⟩ :=
      hback.settles (some sign) _ hbehind
    have hfinal'' : (front ++ [sign] ++ back).getLast? = some final' :=
      getLast?_append_of_some hfinal'
    rw [List.append_assoc] at hfinal''
    refine ⟨tokens ++ sign' :: tokens', final', last', hfinal'', hlast', fun rest => ?_,
      hgood sign' tokens tokens' hbinary hvalue htokens htokens'⟩
    have hstarts : op = " " → (back ++ rest).head?.any startsValue := by
      intro heq
      obtain ⟨first, hfirst, hvalue⟩ :=
        (Option.any_eq_true _ _).1 (hback.starts (by have := hspace heq; omega))
      rw [List.head?_append_of_ne_nil _ (by rintro rfl; cases hfirst), hfirst]
      exact hvalue
    rw [List.append_assoc, hnormal, List.cons_append, hoperator _ hstarts, hnormal']
    simp

/-! ### Arguments -/

theorem settles_nil : Settles [] (· = []) := fun previous resolved _ =>
  ⟨[], previous, resolved, fun _ => rfl, rfl⟩

theorem Settles.imp (h : Settles raws Good) (himp : ∀ tokens, Good tokens → Good' tokens) :
    Settles raws Good' := by
  intro previous resolved hplace
  obtain ⟨tokens, previous', resolved', hnormal, hgood⟩ := h previous resolved hplace
  exact ⟨tokens, previous', resolved', hnormal, himp tokens hgood⟩

theorem Settles.separate (h : Settles front Good) (hsign : sign.separatesArguments)
    (h' : Settles back Good') : Settles (front ++ sign :: back) fun tokens =>
      ∃ before behind, tokens = before ++ sign :: behind ∧ Good before ∧ Good' behind := by
  have hkind : sign.kind = .argument := by simpa [separatesArguments] using hsign
  intro previous resolved hplace
  obtain ⟨before, previous', resolved', hnormal, hbefore⟩ := h previous resolved hplace
  have hbehind : behindValue (some sign) = false := by
    simp [behindValue, closesBracket, closesCall, closesGroup, Token.is, isPostfixOp, hkind]
  obtain ⟨behind, previous'', resolved'', hnormal', hgood⟩ := h' (some sign) _ hbehind
  refine ⟨before ++ sign :: behind, previous'', resolved'', fun rest => ?_, before, behind, rfl,
    hbefore, hgood⟩
  have hresolved : resolveOne .enUS resolved' sign = sign := by simp [resolveOne, hkind]
  rw [List.append_assoc, hnormal, List.cons_append,
    normalFrom_cons (by simp [hkind]) hresolved (by simp [hkind]), hnormal']
  simp

/-- Arguments are read slot by slot. -/
theorem settles_slots {slots : List (Expr × List Token)} (hne : slots ≠ [])
    (h : ∀ slot ∈ slots, Settles slot.2 (FillsSlot slot.1))
    (hjoined : Joined (slots.map Prod.snd) raws) :
    Settles raws (FillsSlots (slots.map Prod.fst)) := by
  induction slots generalizing raws with
  | nil => exact absurd rfl hne
  | cons slot slots ih =>
    have hslot := h slot List.mem_cons_self
    cases slots with
    | nil =>
      cases hjoined
      exact hslot.imp fun tokens hfills => fillsSlots_single hfills
    | cons next slots =>
      obtain ⟨separator, rest, hseparator, rfl, hjoined⟩ := hjoined
      have hrest := ih (by simp) (fun slot hslot => h slot (List.mem_cons_of_mem _ hslot)) hjoined
      refine (hslot.separate hseparator hrest).imp ?_
      rintro _ ⟨before, behind, rfl, hfills, hothers⟩
      exact fillsSlots_cons hfills hseparator hothers

theorem writes_call {slots : List (Expr × List Token)} {name : String} (hopens : opener.opensCall)
    (hname : withoutAt opener.value = name) (hcloses : close.closesCall)
    (hne : slots.map Prod.fst ≠ [.emptyArgument])
    (h : ∀ slot ∈ slots, Settles slot.2 (FillsSlot slot.1))
    (hjoined : Joined (slots.map Prod.snd) raws) :
    Writes 9 (opener :: (raws ++ [close])) (Holds (.call name (slots.map Prod.fst))) := by
  have hkind : opener.kind = .function := (Token.is_iff.1 hopens).1
  have hopened : (resolvedBracket opener).opensCall := by
    rw [opensCall, resolvedBracket_is]
    exact hopens
  have hclosed : (resolvedBracket close).closesCall := by
    rw [closesCall, resolvedBracket_is]
    exact hcloses
  have hvalue : (resolvedBracket opener).value = name := by
    rw [resolvedBracket, if_pos hkind]
    exact hname
  have hopensBracket : opener.opensBracket := by simp [opensBracket, hopens]
  have hclosesBracket : close.closesBracket := by simp [closesBracket, hcloses]
  cases slots with
  | nil =>
    cases hjoined
    refine writes_bracket hopensBracket hclosesBracket settles_nil ?_
    rintro _ rfl
    rw [← hvalue]
    refine holds_call hopened fun rest => ?_
    rw [List.nil_append, arguments, if_pos hclosed]
    rfl
  | cons slot slots =>
    refine writes_bracket hopensBracket hclosesBracket (settles_slots (by simp) h hjoined) ?_
    intro tokens hfills
    rw [← hvalue]
    exact holds_call hopened fun rest => arguments_of_fills hfills hclosed hne

theorem writes_group {e : Expr} (hopens : opener.opensGroup) (hcloses : close.closesGroup)
    (h : Settles raws (Climbs level e)) : Writes 9 (opener :: (raws ++ [close])) (Holds e) := by
  refine writes_bracket (by simp [opensBracket, hopens]) (by simp [closesBracket, hcloses]) h ?_
  intro tokens hclimbs
  refine holds_group hclimbs ?_ ?_
  · rw [opensGroup, resolvedBracket_is]
    exact hopens
  · rw [closesGroup, resolvedBracket_is]
    exact hcloses

/-! ### Leaves -/

/-- Whether the postfix operators behind the token of an expression leave it as it is. -/
def isWhole : Expr → Bool
  | .number _ => false
  | _ => true

theorem canonical_enUS (text : String) : Locale.enUS.canonical text = text := by
  have hsame : (fun c => if c = Locale.enUS.decimalSeparator then '.' else c) = id := by
    funext c
    by_cases hc : c = '.' <;> simp [Locale.decimalSeparator, hc]
  rw [Locale.canonical, hsame, List.map_id, String.ofList_toList]

theorem readNumber?_write (code : Fin Number.overflowCode) :
    (Locale.enUS.readNumber? (Number.Layout.canonical.write (.finite false code))).isSome := by
  obtain ⟨-, d, hread, hcode⟩ := Number.Layout.read?_writeCode code
  have hwrite : (Number.Layout.canonical.write (.finite false code)).toList =
      Number.Layout.canonical.writeCode code := String.toList_ofList
  have hfinite : (Number.Decimal.toBinary64 false d).isFinite := by
    rw [Number.Decimal.toBinary64, hcode, Number.Binary64.ofCode, dif_pos code.isLt]
    rfl
  rw [Locale.readNumber?, if_neg (by simp [Locale.decimalSeparator]), canonical_enUS, hwrite, hread,
    Option.map_some, Option.filter_some, if_pos hfinite]
  rfl

/-- A token that is read alone. -/
theorem writes_single {raw token : Token} {e : Expr} (hkind : raw.kind = .operand)
    (hresolved : ∀ resolved, resolveOne .enUS resolved raw = token)
    (hread : ∀ rest, primary token rest = some (e, rest)) :
    Writes 9 [raw] fun tokens => Climbs 9 e tokens ∧ (isWhole e → Holds e tokens) := by
  have htoken : token.kind = .operand := by
    rw [← hresolved none, kind_resolveOne (by simp [hkind]), hkind]
  have hholds : Holds e [token] := holds_of_primary (by simp [isPrefixOp, htoken]) hread
  exact writes_operand hkind hresolved ⟨climbs_of_holds hholds, fun _ => hholds⟩

theorem resolveOperand_write (code : Fin Number.overflowCode) (start stop : Nat) :
    resolveOperand .enUS ⟨Number.Layout.canonical.write (.finite false code), .operand, .unspecified,
      start, stop⟩ =
    ⟨Number.Layout.canonical.write (.finite false code), .operand, .number, start, stop⟩ := by
  rw [resolveOperand, if_pos (readNumber?_write code), canonical_enUS]

theorem resolveOperand_logical (value : Bool) (start stop : Nat) :
    resolveOperand .enUS ⟨Locale.enUS.logicalLiteral value, .operand, .unspecified, start, stop⟩ =
    ⟨Locale.enUS.logicalLiteral value, .operand, .logical, start, stop⟩ := by
  have hnumber : ∀ value, Locale.enUS.readNumber? (Locale.enUS.logicalLiteral value) = none := by decide
  have hlogical : ∀ value, Locale.enUS.readLogical? (Locale.enUS.logicalLiteral value) = some value := by decide
  simp [resolveOperand, hnumber, hlogical]

theorem resolveOperand_reference {value : String} (hnumber : Locale.enUS.readNumber? value = none)
    (hlogical : Locale.enUS.readLogical? value = none) (start stop : Nat) :
    resolveOperand .enUS ⟨value, .operand, .unspecified, start, stop⟩ =
      ⟨value, .operand, .range, start, stop⟩ := by
  simp [resolveOperand, hnumber, hlogical]

theorem leafText_logical (value : Bool) :
    leafText (.logical value) = (Locale.enUS.logicalLiteral value, .unspecified) := by
  cases value <;> rfl

/-- A leaf is read from its token. -/
theorem writes_leaf {e : Expr} (h : e.Leaf) {start stop : Nat} :
    Writes 9 [⟨(leafText e).1, .operand, (leafText e).2, start, stop⟩] fun tokens =>
      Climbs 9 e tokens ∧ (isWhole e → Holds e tokens) := by
  cases h with
  | @number code =>
    have htext : leafText (.number (.finite false code)) =
        (Number.Layout.canonical.write (.finite false code), .unspecified) := rfl
    rw [htext]
    refine writes_operand rfl (fun _ => (resolveOne_word _ _ _ _ _).trans
      (resolveOperand_write code _ _)) ⟨climbs_number rfl (Number.ofText?_write code), ?_⟩
    rintro ⟨⟩
  | text =>
    refine writes_single rfl (fun _ => rfl) fun rest => ?_
    rw [primary]
    rfl
  | @logical value =>
    rw [leafText_logical]
    refine writes_single rfl (fun _ => (resolveOne_word _ _ _ _ _).trans
      (resolveOperand_logical value _ _)) fun rest => ?_
    rw [primary]
    cases value <;> rfl
  | @reference value _ hnumber hlogical =>
    rw [Expr.leafText_reference]
    refine writes_single rfl (fun _ => (resolveOne_word _ _ _ _ _).trans
      (resolveOperand_reference hnumber hlogical _ _)) fun rest => ?_
    rw [primary]
    rfl
  | errorValue =>
    refine writes_single rfl (fun _ => rfl) fun rest => ?_
    rw [primary]
    rfl

/-- The tokens of an expression are read as it. -/
theorem parse_of_writes {e : Expr}
    (h : Writes level raws (Climbs level' e)) :
    Grammar.parse (normalize .enUS raws) = some e := by
  obtain ⟨tokens, final, last, -, -, hnormal, hclimbs⟩ := h.settles none none rfl
  have hall : normalize .enUS raws = tokens := by
    have hnil := hnormal []
    rw [List.append_nil] at hnil
    calc normalize .enUS raws = tokens ++ [] := hnil
      _ = tokens := List.append_nil tokens
  have hread := hclimbs 0 [] (.inl (Nat.zero_le _)) loose_nil
  rw [List.append_nil, chain] at hread
  rw [hall, Grammar.parse, hread]

end Token

namespace Expr

open Grammar

/-! ### Levels -/

/-- The precedence that an expression is written with. -/
def level (needed : Bool) (e : Expr) : Nat := if needed then 9 else e.precedence

section

variable {e operand left right : Expr} {op : String} {precedence : Nat}

theorem precedence_leaf (h : e.Leaf) : e.precedence = 9 := by
  have hleaf := h.isLeaf
  cases e with
  | unary | binary | call => cases hleaf
  | _ => rfl

theorem level_minus (operand : Expr) :
    Operator.prefixPrecedence ≤ level (operand.guardedFrom "-") operand := by
  unfold level
  split_ifs with hneeded
  · decide
  · simpa [guardedFrom, percentSign] using hneeded

theorem precedence_binary (hop : Operator.binaryPrecedence? op = some precedence) :
    (binary op left right).precedence = precedence := by
  rw [Expr.precedence, operatorPrecedence_eq, hop]
  rfl

/-- Only operators that bind more tightly stand in front of a percent sign without parentheses. -/
theorem precedence_of_unguarded (h : (binary op left right).guardedFromPercent = false) :
    ∃ precedence, Operator.binaryPrecedence? op = some precedence ∧ 6 ≤ precedence ∧
      (op, precedence) ∈ Operator.binaryTable := by
  have hsix : ¬ (binary op left right).precedence < 6 := by simpa [guardedFromPercent] using h
  rw [Expr.precedence, operatorPrecedence_eq] at hsix
  cases hop : Operator.binaryPrecedence? op with
  | none => simp [hop] at hsix
  | some precedence =>
    rw [hop] at hsix
    exact ⟨precedence, rfl, Nat.not_lt.1 hsix, Operator.mem_binaryTable hop⟩

theorem level_left (hop : Operator.binaryPrecedence? op = some precedence) (left : Expr) :
    precedence ≤ level (left.guardedOnLeft op) left := by
  unfold level
  split_ifs with hneeded
  · exact Nat.le_succ_of_le (binaryPrecedence_bound hop).1
  · simpa [guardedOnLeft, hop] using hneeded

theorem level_right (hop : Operator.binaryPrecedence? op = some precedence) (right : Expr) :
    precedence < level (right.guardedOnRight op) right := by
  unfold level
  split_ifs with hneeded
  · exact Nat.lt_succ_of_le (binaryPrecedence_bound hop).1
  · simpa [guardedOnRight, hop] using hneeded

end

end Expr

end SheetFormula
