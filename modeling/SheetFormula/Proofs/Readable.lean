import SheetFormula.Expr.Display
import SheetFormula.Proofs.Numerals
import SheetFormula.Proofs.Rendering
import SheetFormula.Proofs.TokenShapes

/-!
# What the passes leave to the parser

Main statement: `Formula.readable_tokens`, that the parser knows every operator and every number among
the tokens of a formula, whatever its text is.

1. `Regular` is what a scan makes of operators and operands, also where the text ends inside a token.
2. `Readable` is what the passes make of it. A number token carries the canonical spelling of a text
   that its locale reads as a number: `ofText?_canonical`.
-/

namespace SheetFormula

open Number (Binary64)

namespace Token

/-! ## Raw tokens -/

/-- What a raw token is before the passes: its operators are signs, and its numbers are still to be
told from other operands. -/
structure Regular (raw : Token) : Prop where
  operator : raw.kind = .infixOp ∨ raw.kind = .postfixOp →
    (raw.value, raw.kind, raw.subkind) ∈ Scan.signs
  gap : raw.kind = .whitespace → raw.value = " "
  literal : raw.kind = .operand → raw.subkind ≠ .number
  minus : raw.kind ≠ .prefixOp

theorem regular_of_kind {raw : Token} (hbinary : raw.kind ≠ .infixOp) (hpercent : raw.kind ≠ .postfixOp)
    (hgap : raw.kind ≠ .whitespace) (hminus : raw.kind ≠ .prefixOp)
    (hliteral : raw.subkind ≠ .number) : Regular raw where
  operator h := absurd h (by simp [hbinary, hpercent])
  gap h := absurd h hgap
  literal _ := hliteral
  minus := hminus

theorem regular_of_shape {locale : Locale} {raw : Token} (h : Scan.Shape locale raw) : Regular raw := by
  cases h with
  | sign h =>
    have hsigns : ∀ sign ∈ Scan.signs, sign.2.1 ≠ .whitespace ∧ sign.2.1 ≠ .prefixOp ∧
        sign.2.2 ≠ .number := by decide
    obtain ⟨hgap, hminus, hliteral⟩ := hsigns _ h
    exact ⟨fun _ => h, fun heq => absurd heq hgap, fun _ => hliteral, hminus⟩
  | gap => exact ⟨by simp, fun _ => rfl, by simp, by simp⟩
  | close h =>
    rcases h with rfl | rfl <;>
      exact regular_of_kind (by simp) (by simp) (by simp) (by simp) (by simp)
  | word | text | errorValue | call | group | unknown =>
    exact regular_of_kind (by simp) (by simp) (by simp) (by simp) (by simp)

/-! ## Resolved tokens -/

/-- Whether the parser knows what a token stands for. -/
structure Readable (token : Token) : Prop where
  operator : token.isInfixOp → ∃ precedence, Operator.binaryPrecedence? token.value = some precedence
  minus : token.isPrefixOp → token.value = "-"
  percent : token.isPostfixOp → token.value = Expr.percentSign
  number : token.isNumber → ∃ code, Binary64.ofText? token.value = some (.finite false code)

theorem readable_of_kind {token : Token} (hbinary : token.kind ≠ .infixOp)
    (hsign : token.kind ≠ .prefixOp) (hpercent : token.kind ≠ .postfixOp)
    (hnumber : token.isNumber = false) : Readable token where
  operator h := by simp [isInfixOp, hbinary] at h
  minus h := by simp [isPrefixOp, hsign] at h
  percent h := by simp [isPostfixOp, hpercent] at h
  number h := by simp [hnumber] at h

/-- What a locale reads as a number is a finite number without a sign in its canonical spelling. -/
theorem ofText?_canonical {locale : Locale} {text : String} (h : (locale.readNumber? text).isSome) :
    ∃ code, Binary64.ofText? (locale.canonical text) = some (.finite false code) := by
  obtain ⟨value, hvalue⟩ := Option.isSome_iff_exists.1 h
  unfold Locale.readNumber? at hvalue
  split at hvalue
  · cases hvalue
  · obtain ⟨hmap, hfinite⟩ := Option.filter_eq_some_iff.1 hvalue
    obtain ⟨d, hread, rfl⟩ := Option.map_eq_some_iff.1 hmap
    rw [Number.Decimal.ofText?_of_read? hread]
    unfold Number.Decimal.toBinary64 Binary64.ofCode at hfinite ⊢
    split_ifs at hfinite ⊢ with hcode
    · exact ⟨_, rfl⟩
    · cases hfinite

section

variable {locale : Locale} {previous : Option Token} {raw : Token}

theorem readable_operand (hkind : raw.kind = .operand) : Readable (resolveOperand locale raw) := by
  have hkept : (resolveOperand locale raw).kind = .operand := (kind_resolveOperand raw).trans hkind
  refine ⟨by simp [isInfixOp, hkept], by simp [isPrefixOp, hkept], by simp [isPostfixOp, hkept],
    fun hnumber => ?_⟩
  unfold resolveOperand at hnumber ⊢
  split_ifs at hnumber ⊢ with hread
  · exact ofText?_canonical hread
  · split at hnumber <;> simp [isNumber, is] at hnumber

theorem readable_sign (hkind : raw.kind = .infixOp) (h : (raw.value, raw.kind, raw.subkind) ∈ Scan.signs) :
    Readable (resolveOne locale previous raw) := by
  obtain ⟨value, kind, subkind, start, stop⟩ := raw
  obtain rfl : kind = .infixOp := hkind
  have hsigns : ∀ sign ∈ Scan.signs, sign.2.1 = .infixOp →
      (Operator.binaryPrecedence? sign.1).isSome := by decide
  have hoperator : (Operator.binaryPrecedence? value).isSome := hsigns _ h rfl
  simp only [resolveOne, resolveSign]
  split_ifs with hminus
  all_goals refine ⟨fun _ => Option.isSome_iff_exists.1 hoperator, ?_, by simp [isPostfixOp],
    by simp [isNumber, is]⟩
  all_goals simp [isPrefixOp, hminus]

theorem readable_resolveOne (h : Regular raw) : Readable (resolveOne locale previous raw) := by
  by_cases hbinary : raw.kind = .infixOp
  · exact readable_sign hbinary (h.operator (.inl hbinary))
  have hkind : (resolveOne locale previous raw).kind = raw.kind := kind_resolveOne hbinary
  by_cases hoperand : raw.kind = .operand
  · unfold resolveOne
    rw [hoperand]
    dsimp only
    split
    · exact readable_operand hoperand
    · exact readable_of_kind (by simp [hoperand]) (by simp [hoperand]) (by simp [hoperand])
        (by simp [isNumber, is, h.literal hoperand])
  by_cases hpercent : raw.kind = .postfixOp
  · have hsame : resolveOne locale previous raw = raw := by
      unfold resolveOne
      rw [hpercent]
    have hsigns : ∀ sign ∈ Scan.signs, sign.2.1 = .postfixOp → sign.1 = Expr.percentSign := by decide
    rw [hsame]
    exact ⟨by simp [isInfixOp, hpercent], by simp [isPrefixOp, hpercent],
      fun _ => hsigns _ (h.operator (.inr hpercent)) hpercent, by simp [isNumber, is, hpercent]⟩
  · exact readable_of_kind (hkind ▸ hbinary) (hkind ▸ h.minus) (hkind ▸ hpercent)
      (by simp [isNumber, is, hkind, hoperand])

/-- The parser knows what the passes make of regular tokens. -/
theorem Thinned.readable {raws tokens : List Token} (h : Thinned locale raws tokens)
    (hraws : ∀ raw ∈ raws, Regular raw) : ∀ token ∈ tokens, Readable token := by
  induction h with
  | nil => simp
  | drop _ _ ih => exact ih fun raw hr => hraws raw (List.mem_cons_of_mem _ hr)
  | @gap raw raws tokens hkind _ ih =>
    refine List.forall_mem_cons.2 ⟨?_, ih fun raw hr => hraws raw (List.mem_cons_of_mem _ hr)⟩
    have hvalue : raw.value = " " := (hraws raw List.mem_cons_self).gap hkind
    exact ⟨fun _ => ⟨8, by rw [hvalue]; rfl⟩, by simp [isPrefixOp], by simp [isPostfixOp],
      by simp [isNumber, is]⟩
  | keep _ _ _ ih =>
    exact List.forall_mem_cons.2 ⟨readable_resolveOne (hraws _ List.mem_cons_self),
      ih fun raw hr => hraws raw (List.mem_cons_of_mem _ hr)⟩

end

end Token

/-! ## Formulas -/

open Token (Regular Readable)

/-- A scan makes regular tokens, also of what it does not get to the end of. -/
theorem Scan.regular_ofFormula (locale : Locale) (formula : String) :
    ∀ raw ∈ (ofFormula locale formula).tokens.toList, Regular raw := by
  have hrun := shaped_run locale formula
  generalize hs : run locale (body formula.toList) (.initial (leadSize formula)) = s at hrun
  have hregular : ∀ raw ∈ s.tokens.toList, Regular raw :=
    fun raw hr => Token.regular_of_shape (hrun.tokens raw hr)
  have hemitted : ∀ {kind : Token.Kind} {subkind : Token.Subkind},
      kind = .operand ∨ kind = .unknown → subkind ≠ .number →
      ∀ raw ∈ (s.emitPending kind subkind).tokens.toList, Regular raw := by
    intro kind subkind hkind hsubkind raw hr
    rcases List.mem_append.1 (Array.toList_push ▸ hr) with hr | hr
    · exact hregular raw hr
    · cases List.mem_singleton.1 hr
      rcases hkind with rfl | rfl <;>
        exact Token.regular_of_kind (by simp) (by simp) (by simp) (by simp) hsubkind
  have hended : ∀ {kind : Token.Kind}, kind = .operand ∨ kind = .unknown →
      ∀ raw ∈ (s.endPending kind .unspecified).tokens.toList, Regular raw := by
    intro kind hkind
    unfold State.endPending
    split
    · exact hregular
    · exact hemitted hkind (by simp)
  have hnoted : ∀ (fault : LexError) (kind : Token.Kind) (subkind : Token.Subkind),
      ((s.note fault).endPending kind subkind).tokens = (s.endPending kind subkind).tokens := by
    intro fault kind subkind
    unfold State.endPending
    change (if s.pending.isEmpty then _ else _ : State).tokens = _
    split <;> rfl
  rw [ofFormula, tokens_finish, hs]
  unfold finishToken
  cases s.mode with
  | text => exact hemitted (.inl rfl) (by simp)
  | path | bracket =>
    show ∀ raw ∈ ((s.note _).endPending .operand .unspecified).tokens.toList, Regular raw
    rw [hnoted]
    exact hended (.inl rfl)
  | errorLiteral =>
    show ∀ raw ∈ ((s.note _).endPending .unknown .unspecified).tokens.toList, Regular raw
    rw [hnoted]
    exact hended (.inr rfl)
  | number | ordinary => exact hended (.inl rfl)

/-- The parser knows every operator and every number among the tokens of a formula. -/
theorem Formula.readable_tokens (locale : Locale) (formula : String) :
    ∀ token ∈ tokens locale formula, Readable token :=
  (Token.thinned_tokens locale formula).readable (Scan.regular_ofFormula locale formula)

end SheetFormula
