import SheetFormula.Proofs.NumberParts
import SheetFormula.Proofs.Passing
import SheetFormula.Proofs.Printable

/-!
# The tokens of printed expressions

What the text of an expression consists of, and where it does not tell expressions apart.

1. `Spells` says which raw tokens the text of an expression has. It follows the printer: parentheses
   stand where `guardedFrom`, `guardedOnLeft` and `guardedOnRight` ask for them.
2. An expression is `distinct` if no comma between references is exposed to its call, no sign behind
   its left operand belongs to a word, and no call has an empty name.
3. The text of an expression starts with a character that starts texts: `starts_display`.
-/

namespace SheetFormula

open Scan

/-! ## Words of the printer -/

section

variable {locale : Locale} {text : String}

/-- What awaits an exponent is a mantissa with the exponent mark behind it. -/
theorem Locale.split_of_awaitsExponent (h : locale.awaitsExponent text) :
    ∃ mantissa mark, text.toList = mantissa ++ [mark] ∧ (mark = 'E' ∨ mark = 'e') ∧
      ∀ c ∈ mantissa, Text.isDecimalDigit c ∨ c = locale.decimalSeparator := by
  have hmark : ∀ {rest}, isExponentMark rest → ∃ mark, rest = [mark] ∧ (mark = 'E' ∨ mark = 'e') := by
    intro rest hrest
    simp only [isExponentMark, Bool.or_eq_true, beq_iff_eq] at hrest
    rcases hrest with rfl | rfl
    · exact ⟨'E', rfl, .inl rfl⟩
    · exact ⟨'e', rfl, .inr rfl⟩
  have hdigits : ∀ {l : List Char}, ∀ c ∈ l.takeWhile Text.isDecimalDigit, Text.isDecimalDigit c :=
    fun {l} c hc => List.mem_takeWhile_imp hc
  have hsplit := text.toList.takeWhile_append_dropWhile (p := Text.isDecimalDigit)
  simp only [awaitsExponent, Bool.and_eq_true] at h
  obtain ⟨-, h⟩ := h
  split at h
  · rename_i c fraction hrest
    rw [hrest] at hsplit
    simp only [Bool.or_eq_true, Bool.and_eq_true, beq_iff_eq] at h
    rcases h with h | ⟨rfl, h⟩
    · obtain ⟨mark, heq, hcase⟩ := hmark h
      rw [hrest] at heq
      rw [heq] at hsplit
      exact ⟨_, mark, hsplit.symm, hcase, fun c hc => .inl (hdigits c hc)⟩
    · obtain ⟨mark, heq, hcase⟩ := hmark h
      have hfraction := fraction.takeWhile_append_dropWhile (p := Text.isDecimalDigit)
      rw [heq] at hfraction
      refine ⟨text.toList.takeWhile Text.isDecimalDigit ++ locale.decimalSeparator ::
        fraction.takeWhile Text.isDecimalDigit, mark, ?_, hcase, ?_⟩
      · rw [List.append_assoc, List.cons_append, hfraction, hsplit]
      · intro c hc
        rcases List.mem_append.1 hc with hc | hc
        · exact .inl (hdigits c hc)
        · exact (List.mem_cons.1 hc).elim .inr fun hc => .inl (hdigits c hc)
  · cases h

theorem Locale.not_awaitsExponent_of_mem {c : Char} (h : c ∈ text.toList)
    (hdigit : Text.isDecimalDigit c = false) (hseparator : c ≠ locale.decimalSeparator)
    (hmark : c ≠ 'E' ∧ c ≠ 'e') : locale.awaitsExponent text = false := by
  by_contra hawaits
  obtain ⟨mantissa, mark, htext, hcase, hmantissa⟩ :=
    split_of_awaitsExponent (Bool.not_eq_false _ ▸ hawaits)
  rw [htext, List.mem_append, List.mem_singleton] at h
  rcases h with h | rfl
  · rcases hmantissa c h with h | h
    · rw [hdigit] at h
      cases h
    · exact hseparator h
  · exact hcase.elim hmark.1 hmark.2

end

namespace Number.Decimal

open Scan

theorem Plain.isDigit_or_point {text : List Char} (h : Plain text) {c : Char} (hc : c ∈ text) :
    c.isDigit ∨ c = '.' := by
  obtain ⟨whole, fraction, -, hwhole, hfraction, rfl | rfl⟩ := h
  · exact .inl (hwhole c hc)
  · rcases List.mem_append.1 hc with hc | hc
    · exact .inl (hwhole c hc)
    · exact (List.mem_cons.1 hc).elim .inr fun hc => .inl (hfraction c hc)

theorem Plain.not_awaitsExponent {text : String} (h : Plain text.toList) :
    Locale.enUS.awaitsExponent text = false := by
  by_contra hawaits
  obtain ⟨mantissa, mark, htext, hmark, -⟩ :=
    Locale.split_of_awaitsExponent (Bool.not_eq_false _ ▸ hawaits)
  have hplain := h.isDigit_or_point (c := mark) (by rw [htext]; simp)
  rcases hmark with rfl | rfl <;> revert hplain <;> decide

theorem Plain.word {text : String} (h : Plain text.toList) : Word .enUS text := by
  obtain ⟨whole, fraction, hne, hwhole, hfraction, htext⟩ := h
  obtain ⟨parts, hparts, hparts_text⟩ : ∃ parts : NumberParts, parts.whole = whole ∧
      parts.text '.' = text.toList := by
    rcases htext with htext | htext
    · refine ⟨⟨whole, none, none, hwhole, fun _ h => by cases h⟩, rfl, ?_⟩
      simp [NumberParts.text, NumberParts.mantissa, scaled, htext]
    · refine ⟨⟨whole, some fraction, none, hwhole, fun _ h => by cases h; exact hfraction⟩, rfl, ?_⟩
      simp [NumberParts.text, NumberParts.mantissa, scaled, htext]
  have hword : Word .enUS (String.ofList (parts.text '.')) := NumberParts.word (hparts ▸ hne)
  rwa [hparts_text, String.ofList_toList] at hword

end Number.Decimal

namespace Expr

/-! ## What printing can confuse -/

mutual

/-- Whether a check holds of an expression and of everything in it. -/
def everywhere (check : Expr → Bool) : Expr → Bool
  | unary op operand => check (unary op operand) && operand.everywhere check
  | binary op left right =>
    check (binary op left right) && left.everywhere check && right.everywhere check
  | call name args => check (call name args) && everywhereIn check args
  | e => check e

/-- Whether a check holds everywhere in a list of expressions. -/
def everywhereIn (check : Expr → Bool) : List Expr → Bool
  | [] => true
  | arg :: rest => arg.everywhere check && everywhereIn check rest

end

theorem of_everywhere {check : Expr → Bool} {e : Expr} (h : e.everywhere check) : check e := by
  cases e with
  | unary | binary | call =>
    simp only [everywhere, Bool.and_eq_true] at h
    simp [h]
  | _ => exact h

theorem everywhereIn_iff {check : Expr → Bool} {args : List Expr} :
    everywhereIn check args ↔ ∀ arg ∈ args, arg.everywhere check := by
  induction args with
  | nil => simp [everywhereIn]
  | cons arg args ih => simp [everywhereIn, ih]

/-- Whether the left operand of an operator is written in parentheses. -/
def guardedOnLeft (op : String) (left : Expr) : Bool :=
  left.precedence < (Operator.binaryPrecedence? op).getD 1

/-- Whether the right operand of an operator is written in parentheses. -/
def guardedOnRight (op : String) (right : Expr) : Bool :=
  right.precedence ≤ (Operator.binaryPrecedence? op).getD 1

/-- Whether the operand of a minus sign or a percent sign is written in parentheses. -/
def guardedFrom (op : String) (operand : Expr) : Bool :=
  if op = percentSign then operand.guardedFromPercent
  else operand.precedence < Operator.prefixPrecedence

/-- Whether the text of an expression has a comma between references outside all parentheses. -/
def exposesUnion : Expr → Bool
  | unary op operand => !guardedFrom op operand && operand.exposesUnion
  | binary op left right =>
    op == "," || !guardedOnLeft op left && left.exposesUnion ||
      !guardedOnRight op right && right.exposesUnion
  | _ => false

/-- Whether a sign behind the text of an expression would belong to its last word. -/
def awaitsExponent : Expr → Bool
  | cell ref => Locale.enUS.awaitsExponent ref.raw
  | unary op operand => op != percentSign && !guardedFrom op operand && operand.awaitsExponent
  | binary op _ right => !guardedOnRight op right && right.awaitsExponent
  | _ => false

/-- Whether the text of an expression keeps its outermost operator or call apart from other ones. -/
def distinct : Expr → Bool
  | binary op left _ => !((op == "+" || op == "-") && !guardedOnLeft op left && left.awaitsExponent)
  | call name args => name != "" && args.all fun arg => !arg.exposesUnion
  | _ => true

/-! ## Precedences

The printer has a table of its own. -/

theorem operatorPrecedence_eq (op : String) :
    operatorPrecedence op = (Operator.binaryPrecedence? op).getD 1 := by
  rw [← Grammar.precedence?_eq]
  unfold operatorPrecedence Grammar.precedence?
  split <;> try rfl
  split <;> first | rfl | contradiction

theorem precedence_minus (operand : Expr) :
    (unary "-" operand).precedence = Operator.prefixPrecedence := rfl

/-! ## Texts -/

theorem display_minus (operand : Expr) : (unary "-" operand).display =
    "-" ++ wrapped (operand.guardedFrom "-") operand.display := by
  rw [display, if_neg (by decide), precedence_minus]
  rfl

theorem display_percent (operand : Expr) : (unary percentSign operand).display =
    wrapped (operand.guardedFrom percentSign) operand.display ++ percentSign := by
  rw [display, if_pos rfl]
  rfl

theorem display_binary (op : String) (left right : Expr) : (binary op left right).display =
    wrapped (left.guardedOnLeft op) left.display ++ op ++
      wrapped (right.guardedOnRight op) right.display := by
  rw [display, guardedOnLeft, guardedOnRight, ← operatorPrecedence_eq]
  rfl

theorem display_reference (value : String) : (reference value).display = value := by
  rcases reference_cases value with ⟨h, -⟩ | ⟨first, last, h, hvalue⟩
  · rw [h]
    simp only [display, Reference.ofText]
  · rw [h, hvalue]
    simp only [display, Reference.ofText]

theorem Leaf.ne_call {e : Expr} {name : String} {args : List Expr} (h : Leaf e) :
    e ≠ .call name args := by
  rintro rfl
  cases h.isLeaf

end Expr

namespace Token

/-! ## The tokens of a text -/

/-- The token that an expression of one token is written as. -/
def leafText : Expr → String × Subkind
  | .text value => (value, .text)
  | .errorValue value => (value, .error)
  | e => (e.display, .unspecified)

/-- Tokens with separators between them. -/
def Joined : List (List Token) → List Token → Prop
  | [], tokens => tokens = []
  | [part], tokens => tokens = part
  | part :: next :: parts, tokens => ∃ separator rest, separator.separatesArguments ∧
      tokens = part ++ separator :: rest ∧ Joined (next :: parts) rest

/-- The raw tokens of the text of an expression, in parentheses where the first argument says so. -/
inductive Spells : Bool → Expr → List Token → Prop
  | leaf {e start stop} : e.Leaf →
      Spells false e [⟨(leafText e).1, .operand, (leafText e).2, start, stop⟩]
  | minus {operand sign tokens} : SpellsOperator "-" sign →
      Spells (operand.guardedFrom "-") operand tokens →
      Spells false (.unary "-" operand) (sign :: tokens)
  | percent {operand sign tokens} : sign.kind = .postfixOp ∧ sign.value = Expr.percentSign →
      Spells (operand.guardedFrom Expr.percentSign) operand tokens →
      Spells false (.unary Expr.percentSign operand) (tokens ++ [sign])
  | binary {op precedence left right sign front back} :
      Operator.binaryPrecedence? op = some precedence → SpellsOperator op sign →
      Spells (left.guardedOnLeft op) left front → Spells (right.guardedOnRight op) right back →
      Spells false (.binary op left right) (front ++ sign :: back)
  /-- An argument that is left out has no token. -/
  | call {name opener close inner} (slots : List (Expr × List Token)) :
      opener.opensCall ∧ opener.value = name → close.closesCall →
      slots.map Prod.fst ≠ [.emptyArgument] → (∀ slot ∈ slots, slot.1 = .emptyArgument → slot.2 = []) →
      (∀ slot ∈ slots, slot.1 ≠ .emptyArgument → Spells false slot.1 slot.2) →
      Joined (slots.map Prod.snd) inner →
      Spells false (.call name (slots.map Prod.fst)) (opener :: (inner ++ [close]))
  | group {e opener close tokens} : opener.opensGroup → close.closesGroup →
      Spells false e tokens → Spells true e (opener :: (tokens ++ [close]))

end Token

namespace Expr

open Token

section

variable {e : Expr}

theorem leafText_reference (value : String) :
    leafText (reference value) = (value, .unspecified) := by
  have hdisplay := display_reference value
  rcases reference_cases value with ⟨h, -⟩ | ⟨first, last, h, -⟩ <;>
    rw [h] at hdisplay ⊢ <;> rw [leafText, hdisplay] <;> simp

theorem awaitsExponent_reference (value : String) :
    (reference value).awaitsExponent = Locale.enUS.awaitsExponent value := by
  rcases reference_cases value with ⟨h, -⟩ | ⟨first, last, h, hvalue⟩
  · rw [h]
    simp only [awaitsExponent, Reference.ofText]
  · have hcolon : ':' ∈ value.toList := by
      rw [hvalue]
      simp
    rw [h, Locale.not_awaitsExponent_of_mem hcolon (by decide) (by decide) (by decide)]
    simp only [awaitsExponent]

theorem plain_write (code : Fin Number.overflowCode) :
    Number.Decimal.Plain (Number.Layout.canonical.write (.finite false code)).toList := by
  have hwrite : (Number.Layout.canonical.write (.finite false code)).toList =
      Number.Layout.canonical.writeCode code := String.toList_ofList
  rw [hwrite]
  exact (Number.Layout.read?_writeCode code).1

/-! ## The start of a text -/

/-- Whether a text starts as the text of an expression does. -/
def Starts (text : String) : Prop := ∃ c tail, text.toList = c :: tail ∧ startsText c

theorem startsText_of_not_endsWord {c : Char} (h : endsWord c = false) : startsText c := by
  simp [startsText, h]

theorem starts_word {locale : Locale} {word : String} (h : Word locale word) : Starts word := by
  obtain ⟨hne, mode, habsorbs, -⟩ := h
  cases hword : word.toList with
  | nil => exact absurd (String.toList_inj.1 hword) hne
  | cons c tail =>
    refine ⟨c, tail, hword, startsText_of_not_endsWord ?_⟩
    rw [hword, absorbs] at habsorbs
    cases hends : endsWord c with
    | false => rfl
    | true =>
      simp [absorb, absorbOrdinary, hends] at habsorbs

theorem starts_append {text : String} (h : Starts text) (more : String) : Starts (text ++ more) := by
  obtain ⟨c, tail, htext, hc⟩ := h
  exact ⟨c, tail ++ more.toList, by rw [String.toList_append, htext]; rfl, hc⟩

theorem starts_errorWord {locale : Locale} {text : String} (h : ErrorWord locale text) : Starts text := by
  obtain ⟨sheet, literal, rfl, hsheet, hliteral⟩ := h
  rcases hsheet with rfl | ⟨hword, -⟩
  · have hmark : ∀ literal ∈ errorLiterals, literal.toList = '#' :: literal.toList.tail := by decide
    exact ⟨'#', _, hmark literal hliteral, by decide⟩
  · exact starts_append (starts_word hword) literal

theorem starts_wrapped {text : String} (h : Starts text) (needed : Bool) :
    Starts (wrapped needed text) := by
  cases needed with
  | false => exact h
  | true => exact starts_append (starts_append ⟨'(', [], rfl, by decide⟩ text) ")"

theorem starts_leaf (h : e.Leaf) : Starts e.display := by
  cases h with
  | @number code =>
    rw [display]
    exact starts_word (plain_write code).word
  | text =>
    rw [display]
    exact starts_append (starts_append ⟨'"', [], rfl, by decide⟩ _) _
  | @logical value =>
    rw [display]
    cases value
    · exact ⟨'F', _, rfl, by decide⟩
    · exact ⟨'T', _, rfl, by decide⟩
  | reference hword =>
    rw [display_reference]
    exact starts_word hword
  | errorValue herror =>
    rw [display]
    exact starts_errorWord herror

theorem starts_display (h : e.Printable) : Starts e.display := by
  induction h with
  | leaf h => exact starts_leaf h
  | minus =>
    rw [display_minus]
    exact starts_append ⟨'-', [], rfl, by decide⟩ _
  | percent _ ih =>
    rw [display_percent]
    exact starts_append (starts_wrapped ih _) _
  | binary _ _ _ ihleft =>
    rw [display_binary]
    exact starts_append (starts_append (starts_wrapped ihleft _) _) _
  | call hname =>
    rw [display]
    split
    · exact starts_append (starts_append ⟨'\x7b', [], rfl, by decide⟩ _) _
    · rcases hname with rfl | hword
      · exact starts_append (starts_append ⟨'(', [], rfl, by decide⟩ _) _
      · exact starts_append (starts_append (starts_append (starts_word hword) _) _) _

theorem head_of_starts {text : String} (h : Starts text) :
    ∀ c ∈ (text.toList ++ rest).head?, startsText c := by
  obtain ⟨c, tail, htext, hc⟩ := h
  rw [htext]
  intro d hd
  cases hd
  exact hc

end

end Expr

end SheetFormula
