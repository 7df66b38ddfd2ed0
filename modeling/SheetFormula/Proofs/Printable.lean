import Mathlib.Data.List.TakeWhile
import SheetFormula.Expr.Display
import SheetFormula.Formula
import SheetFormula.Proofs.Standing
import SheetFormula.Proofs.Steps

/-!
# The expressions of formulas

Main statement: `printable_of_parse`, what the expression of a formula without a fault consists of.

1. A `Printable` expression has non-negative finite numbers, words for its references and names, the
   operators of the table, and no token of unknown kind.
2. `Settled` is what the passes over the tokens leave of the shapes of raw tokens.
3. The grammar reads printable expressions from settled tokens: `printable_keeps`.
-/

namespace SheetFormula

open Number (Binary64)
open Scan (Word ErrorWord Shape)

namespace Expr

/-- The expressions that are read from one token. -/
inductive Leaf : Expr → Prop
  | number {code} : Leaf (.number (.finite false code))
  | text {value} : Leaf (.text value)
  | logical {value} : Leaf (.logical value)
  | reference {value} : Word .enUS value → Locale.enUS.readNumber? value = none →
      Locale.enUS.readLogical? value = none → Leaf (.reference value)
  | errorValue {value} : ErrorWord .enUS value → Leaf (.errorValue value)

/-- The expressions of formulas. -/
inductive Printable : Expr → Prop
  | leaf {e} : Leaf e → Printable e
  | minus {operand} : Printable operand → Printable (.unary "-" operand)
  | percent {operand} : Printable operand → Printable (.unary percentSign operand)
  | binary {op left right precedence} : Operator.binaryPrecedence? op = some precedence →
      Printable left → Printable right → Printable (.binary op left right)
  /-- A call of one argument that is left out has no argument. -/
  | call {name args} : name = "" ∨ Word .enUS name → args ≠ [.emptyArgument] →
      (∀ arg ∈ args, arg ≠ .emptyArgument → Printable arg) → Printable (.call name args)

/-- A reference is one cell or a range. -/
theorem reference_cases (text : String) :
    (reference text = .cell (.ofText text) ∧ ':' ∉ text.toList) ∨
      ∃ first last, reference text = .cellRange (.ofText first) (.ofText last) ∧
        text = first ++ ":" ++ last := by
  have hsplit : text.toList.takeWhile (· != ':') ++ text.toList.dropWhile (· != ':') = text.toList :=
    List.takeWhile_append_dropWhile
  unfold reference
  cases hdrop : text.toList.dropWhile (· != ':') with
  | nil =>
    refine .inl ⟨by simp only [hdrop], fun hmem => ?_⟩
    simpa using List.dropWhile_eq_nil_iff.1 hdrop ':' hmem
  | cons c last =>
    have hcolon : c = ':' := by
      have hhead := List.head?_dropWhile_not (· != ':') text.toList
      rw [hdrop] at hhead
      simpa using hhead
    refine .inr ⟨String.ofList (text.toList.takeWhile (· != ':')), String.ofList last,
      by simp only [hdrop], ?_⟩
    rw [hdrop, hcolon] at hsplit
    calc text = String.ofList (text.toList.takeWhile (· != ':') ++ ':' :: last) := by
          rw [hsplit, String.ofList_toList]
      _ = String.ofList (text.toList.takeWhile (· != ':')) ++ ":" ++ String.ofList last := by
          rw [← String.toList_inj]
          simp

/-- What is printed as one token has no parts. -/
theorem Leaf.isLeaf {e : Expr} (h : Leaf e) : e.isLeaf := by
  cases h with
  | reference => exact isLeaf_reference _
  | _ => rfl

theorem Leaf.ne_emptyArgument {e : Expr} (h : Leaf e) : e ≠ .emptyArgument := by
  rcases h with _ | _ | _ | ⟨_, _, _⟩ | _
  case reference value _ _ _ =>
    rcases reference_cases value with ⟨h, -⟩ | ⟨first, last, h, -⟩ <;> simp [h]
  all_goals simp

theorem Printable.ne_emptyArgument {e : Expr} (h : Printable e) : e ≠ .emptyArgument := by
  cases h with
  | leaf h => exact h.ne_emptyArgument
  | _ => simp

end Expr

namespace Token

/-! ## Shapes behind the passes -/

/-- What the passes leave of the shape of a token. -/
structure Settled (token : Token) : Prop where
  number : token.isNumber → ∃ code, Binary64.ofText? token.value = some (.finite false code)
  reference : token.isRange → Word .enUS token.value ∧
    Locale.enUS.readNumber? token.value = none ∧ Locale.enUS.readLogical? token.value = none
  errorValue : token.isError → ErrorWord .enUS token.value
  name : token.opensCall → token.value = "" ∨ Word .enUS token.value
  percent : token.isPostfixOp → token.value = Expr.percentSign

theorem word_withoutAt {locale : Locale} {text : String} (h : Word locale text) :
    withoutAt text = "" ∨ Word locale (withoutAt text) := by
  by_cases hat : ∃ rest, text.toList = '@' :: rest
  · obtain ⟨rest, hat⟩ := hat
    rw [withoutAt_of_at hat]
    by_cases hrest : rest = []
    · exact .inl (by rw [hrest])
    · right
      obtain ⟨-, mode, habsorbs, hmode⟩ := h
      rw [hat] at habsorbs
      have hfirst : Scan.absorb locale .ordinary "" '@' (rest ++ []) = some .ordinary := rfl
      have hrun : Scan.absorbs locale ['@'] .ordinary rest [] = some mode := by
        rw [Scan.absorbs, show String.ofList [] = "" from rfl, hfirst] at habsorbs
        exact habsorbs
      obtain ⟨mode', habsorbs', halike⟩ := Scan.absorbs_alike (.inl ⟨rfl, by simp⟩) hrun
      refine ⟨by simpa using hrest, mode', by rwa [String.toList_ofList], ?_⟩
      rcases halike with ⟨rfl, -⟩ | ⟨-, rfl, -⟩
      · exact hmode
      · exact .inr rfl
  · rw [withoutAt_of_not_at fun rest hrest => hat ⟨rest, hrest⟩]
    exact .inr h

theorem settled_of_kind {token : Token} (hoperand : token.kind ≠ .operand)
    (hfunction : token.opensCall = false) (hpercent : token.kind ≠ .postfixOp) : Settled token where
  number h := by simp [isNumber, is, hoperand] at h
  reference h := by simp [isRange, is, hoperand] at h
  errorValue h := by simp [isError, is, hoperand] at h
  name h := by simp [hfunction] at h
  percent h := by simp [isPostfixOp, hpercent] at h

theorem settled_operand {value : String} {start stop : Nat} (h : Word .enUS value) :
    Settled (resolveOperand .enUS ⟨value, .operand, .unspecified, start, stop⟩) := by
  unfold resolveOperand
  split_ifs with hnumber
  · exact ⟨fun _ => ofText?_canonical hnumber, by simp [isRange, is], by simp [isError, is],
      by simp [opensCall, is], by simp [isPostfixOp]⟩
  split
  · exact ⟨by simp [isNumber, is], by simp [isRange, is], by simp [isError, is],
      by simp [opensCall, is], by simp [isPostfixOp]⟩
  · rename_i hlogical
    exact ⟨by simp [isNumber, is], fun _ => ⟨h, by simpa using hnumber, hlogical⟩,
      by simp [isError, is], by simp [opensCall, is], by simp [isPostfixOp]⟩

theorem settled_sign {previous : Option Token} {value : String} {kind : Kind} {subkind : Subkind}
    {start stop : Nat} (h : (value, kind, subkind) ∈ Scan.signs) :
    Settled (resolveOne .enUS previous ⟨value, kind, subkind, start, stop⟩) := by
  have hsign : ∀ sign ∈ Scan.signs, sign.2.1 = .infixOp ∨ sign.2.1 = .argument ∨
      sign.1 = Expr.percentSign ∧ sign.2.1 = .postfixOp := by decide
  obtain h | h | ⟨h, h'⟩ := hsign _ h
  · have hkind : kind = .infixOp := h
    have hresolved : ∀ token : Token, token.kind = .infixOp ∨ token.kind = .prefixOp ∨
        token.kind = .noop → Settled token := by
      rintro token (h | h | h) <;>
        exact settled_of_kind (by simp [h]) (by simp [opensCall, is, h]) (by simp [h])
    exact hresolved _ (kind_resolveOne_infixOp hkind)
  · have hkind : kind = .argument := h
    subst hkind
    exact settled_of_kind (by simp [resolveOne]) rfl (by simp [resolveOne])
  · have hkind : kind = .postfixOp := h'
    subst hkind
    exact ⟨by simp [resolveOne, isNumber, is], by simp [resolveOne, isRange, is],
      by simp [resolveOne, isError, is], by simp [resolveOne, opensCall, is], fun _ => h⟩

theorem resolveOne_word (locale : Locale) (previous : Option Token) (value : String)
    (start stop : Nat) : resolveOne locale previous ⟨value, .operand, .unspecified, start, stop⟩ =
      resolveOperand locale ⟨value, .operand, .unspecified, start, stop⟩ := by
  unfold resolveOne
  exact if_pos rfl

theorem settled_resolveOne {previous : Option Token} {token : Token} (h : Shape .enUS token) :
    Settled (resolveOne .enUS previous token) := by
  cases h with
  | word h =>
    rw [resolveOne_word]
    exact settled_operand h
  | text =>
    exact ⟨by simp [resolveOne, isNumber, is], by simp [resolveOne, isRange, is],
      by simp [resolveOne, isError, is], by simp [resolveOne, opensCall, is],
      by simp [resolveOne, isPostfixOp]⟩
  | errorValue h =>
    exact ⟨by simp [resolveOne, isNumber, is], by simp [resolveOne, isRange, is], fun _ => h,
      by simp [resolveOne, opensCall, is], by simp [resolveOne, isPostfixOp]⟩
  | sign h => exact settled_sign h
  | gap => exact settled_of_kind (by simp [resolveOne]) rfl (by simp [resolveOne])
  | call h =>
    rw [resolveOne_function]
    exact ⟨by simp [isNumber, is], by simp [isRange, is], by simp [isError, is],
      fun _ => word_withoutAt h, by simp [isPostfixOp]⟩
  | group => exact settled_of_kind (by simp [resolveOne]) rfl (by simp [resolveOne])
  | close h =>
    rcases h with rfl | rfl
    · rw [resolveOne_function, withoutAt_empty]
      exact ⟨by simp [isNumber, is], by simp [isRange, is], by simp [isError, is],
        by simp [opensCall, is], by simp [isPostfixOp]⟩
    · exact settled_of_kind (by simp [resolveOne]) rfl (by simp [resolveOne])
  | unknown => exact settled_of_kind (by simp [resolveOne]) rfl (by simp [resolveOne])

/-! ## Lists of tokens -/

theorem Thinned.settled {raws tokens : List Token} (h : Thinned .enUS raws tokens)
    (hshapes : ∀ raw ∈ raws, Shape .enUS raw) : ∀ token ∈ tokens, Settled token := by
  induction h with
  | nil => simp
  | drop _ _ ih => exact ih fun raw hr => hshapes raw (List.mem_cons_of_mem _ hr)
  | gap _ _ ih =>
    intro token ht
    rcases List.mem_cons.1 ht with rfl | ht
    · exact settled_of_kind (by simp) rfl (by simp)
    · exact ih (fun raw hr => hshapes raw (List.mem_cons_of_mem _ hr)) token ht
  | keep _ _ _ ih =>
    intro token ht
    rcases List.mem_cons.1 ht with rfl | ht
    · exact settled_resolveOne (hshapes _ List.mem_cons_self)
    · exact ih (fun raw hr => hshapes raw (List.mem_cons_of_mem _ hr)) token ht

end Token

namespace Grammar

/-- What is read from settled tokens is printable. -/
theorem printable_keeps : Keeps Token.Settled Expr.Printable where
  number {token value} hsettled hnumber hvalue := by
    obtain ⟨code, hcode⟩ := hsettled.number hnumber
    obtain ⟨code', hpercent⟩ := Number.percent_finite code
    obtain rfl : value = .finite false code := Option.some.inj (hvalue.symm.trans hcode)
    exact ⟨.leaf .number, hpercent ▸ .leaf .number⟩
  text := .leaf .text
  logical := .leaf .logical
  reference hsettled hrange := by
    obtain ⟨hword, hnumber, hlogical⟩ := hsettled.reference hrange
    exact .leaf (.reference hword hnumber hlogical)
  errorValue hsettled herror := .leaf (.errorValue (hsettled.errorValue herror))
  minus := .minus
  percent hsettled hpercent hoperand := hsettled.percent hpercent ▸ .percent hoperand
  binary := .binary
  call hsettled hcall hne hargs := .call (hsettled.name hcall) hne hargs
  present := Expr.Printable.ne_emptyArgument

end Grammar

/-- The tokens of a formula are read as its expression, and it has no fault if it is read strictly. -/
theorem Formula.checked_of_parse {options : Formula.Options} {formula : String} {e : Expr}
    (h : Formula.parse options formula = .ok e) :
    (options.strict = true → (Scan.ofFormula options.locale formula).fault = none) ∧
      Grammar.parse (Formula.tokens options.locale formula) = some e := by
  obtain ⟨locale, limits, strict⟩ := options
  have hread (hparse : (Parser.parse limits (tokens locale formula)).mapError .grammar =
      (.ok e : Except FormulaError Expr)) : Grammar.parse (tokens locale formula) = some e := by
    cases hresult : Parser.parse limits (tokens locale formula) with
    | error cause =>
      rw [hresult] at hparse
      cases hparse
    | ok e' =>
      rw [hresult] at hparse
      cases hparse
      exact Parser.grammar_of_parse hresult
  cases hfault : (Scan.ofFormula locale formula).fault with
  | none =>
    rw [parse_of_faultless strict hfault] at h
    exact ⟨fun _ => rfl, hread h⟩
  | some fault =>
    cases strict with
    | false => exact ⟨nofun, hread h⟩
    | true =>
      have herror : parse ⟨locale, limits, true⟩ formula = .error (.lex fault) := by
        simp [parse, Options.tokens, checkedTokens, hfault, Except.mapError, bind, Except.bind]
      rw [herror] at h
      cases h

/-- The tokens of a formula that is read strictly, and what they are read as. -/
theorem Formula.tokens_of_parse {locale : Locale} {limits : Parser.Limits} {formula : String}
    {e : Expr} (h : Formula.parse ⟨locale, limits, true⟩ formula = .ok e) :
    (Scan.ofFormula locale formula).fault = none ∧
      Grammar.parse (Formula.tokens locale formula) = some e :=
  (checked_of_parse h).imp_left fun hfault => hfault rfl

/-- What the expression of a formula without a fault consists of. -/
theorem Expr.printable_of_parse {limits : Parser.Limits} {formula : String} {e : Expr}
    (h : Formula.parse ⟨.enUS, limits, true⟩ formula = .ok e) : e.Printable := by
  obtain ⟨hfault, hgrammar⟩ := Formula.tokens_of_parse h
  have hsettled := (Token.thinned_tokens .enUS formula).settled (Scan.shapes_ofFormula hfault).1
  exact Grammar.printable_keeps.of_parse ⟨hsettled, .inr (Token.leading_tokens hfault)⟩ hgrammar

end SheetFormula
