import Mathlib
import SheetFormula.Proofs.Rescanning

/-!
# Written tokens keep their labels

Main statement: `Formula.keepsLabels_iff`, when the tokens of a formula are written as a text whose
tokens have the same labels.

1. The tokens of a formula that is read strictly are a stretch in which intersections stand between
   operands, so that raw tokens that recover them are enough: `labels_render`.
2. `Separable` takes two conditions one by one. None of them can be left out: without it, some formula
   loses the label of a token.
-/

namespace SheetFormula

open Token

namespace Formula

/-- What keeps the tokens of a formula apart where they are written: no number goes on with the
operator behind it, and no call has an empty name. -/
structure Separable (locale : Locale) (joints names : Bool) (tokens : List Token) : Prop where
  joints : joints → tokens.IsChain fun token next => token.joins locale next = false
  names : names → ∀ token ∈ tokens, token.opensCall → token.value ≠ ""

/-- Whether the tokens of a formula keep their labels where they are written and read again, among the
formulas whose tokens pass a check. -/
def KeepsLabels (locale : Locale) (Check : List Token → Prop) : Prop :=
  ∀ {limits : Parser.Limits} {formula : String} {e : Expr},
    parse ⟨locale, limits, true⟩ formula = .ok e → Check (tokens locale formula) →
      (tokens locale (render locale (tokens locale formula))).map label =
        (tokens locale formula).map label

variable {locale : Locale}

theorem isChain_apart {tokens : List Token} (h : tokens.IsChain Follows)
    (h' : tokens.IsChain fun token next => token.joins locale next = false) :
    tokens.IsChain (Scan.Apart locale) := by
  induction tokens with
  | nil => exact .nil
  | cons token rest ih =>
    obtain ⟨hfollows, hrest⟩ := List.isChain_cons.1 h
    obtain ⟨hparted, hrest'⟩ := List.isChain_cons.1 h'
    exact List.isChain_cons.2
      ⟨fun next hnext => ⟨hfollows next hnext, hparted next hnext⟩, ih hrest hrest'⟩

/-- The text of a stretch of tokens is read from its first character on. -/
theorem body_of_heralds {tokens : List Token} {text : List Char} (hfirst : tokens.head?.any begins)
    (h : Scan.Heralds locale tokens text) : Scan.body text = text := by
  obtain ⟨first, hhead, hbegins⟩ := (Option.any_eq_true _ _).1 hfirst
  obtain ⟨c, hc, hheads⟩ := h.2 first hhead
  have hstarts := hheads.begins hbegins
  refine Scan.body_of_head fun d hd => ?_
  obtain rfl : d = c := Option.some.inj (hd.symm.trans hc)
  constructor <;> rintro rfl <;> exact absurd hstarts (by decide)

/-- Written tokens keep their labels where they are separable. -/
theorem labels_render {limits : Parser.Limits} {formula : String} {e : Expr}
    (h : parse ⟨locale, limits, true⟩ formula = .ok e)
    (hseparable : Separable locale true true (tokens locale formula)) :
    (tokens locale (render locale (tokens locale formula))).map label =
      (tokens locale formula).map label := by
  obtain ⟨hfault, -⟩ := tokens_of_parse h
  obtain ⟨hshapes, -⟩ := Scan.shapes_ofFormula hfault
  obtain ⟨-, hopenings, haccepted⟩ := (Scan.fault_ofFormula_iff locale formula).1 hfault
  have hpieces := Scan.pieces_ofFormula locale formula
  have hthinned : Thinned locale (Scan.ofFormula locale formula).tokens.toList
      (tokens locale formula) := thinned_tokens locale formula
  have hspaced : Spaced none (tokens locale formula) :=
    spaced_from (fun raw hraw => Scan.unsettled_of_shape (hshapes raw hraw)) id
  obtain ⟨hstretch, hrecognised⟩ := stretch_of_parse h
  rw [hopenings] at hpieces
  have htext := render_of_pieces hpieces hthinned
  have hrescans := Scan.rescans_pieces hpieces hthinned hshapes (fun token ht =>
    ⟨hstretch.known token ht, hrecognised token ht, hseparable.names rfl token ht⟩) haccepted
  generalize tokens locale formula = formulaTokens at *
  have hheralds : Scan.Heralds locale formulaTokens (render locale formulaTokens).toList := by
    have hnone : Scan.Heralds locale [] [] := ⟨fun _ => rfl, by simp⟩
    have hheralds := hrescans.heralds hnone
    rw [List.append_nil, List.append_nil, Scan.written, ← htext] at hheralds
    exact hheralds
  have hchain : (formulaTokens ++ []).IsChain (Scan.Apart locale) := by
    rw [List.append_nil]
    exact isChain_apart hstretch.chain (hseparable.joints rfl)
  obtain ⟨opened, hopened, hpasses⟩ := hrescans.passes
    (s := .initial (Scan.leadSize (render locale formulaTokens))) ⟨rfl, rfl⟩ rfl hchain
    ⟨fun _ => rfl, by simp⟩
  obtain rfl : opened = [] := List.map_eq_nil_iff.1 hopened
  rw [Scan.written, ← htext, ← body_of_heralds hstretch.first hheralds] at hpasses
  obtain ⟨-, hrecovers⟩ := Scan.ofFormula_of_passes_body hpasses
  have henters : ∀ token ∈ formulaTokens.head?, Enters none token := by
    intro token ht
    have hbegins := hstretch.first
    rw [Option.mem_def.1 ht] at hbegins
    exact enters_start hbegins
  exact labels_normal hrecovers hstretch.chain hrecognised hspaced henters rfl rfl

/-! ## Formulas that lose a label -/

theorem not_keepsLabels {Check : List Token → Prop} {limits : Parser.Limits} {formula : String}
    {e : Expr} (h : parse ⟨locale, limits, true⟩ formula = .ok e)
    (hcheck : Check (tokens locale formula))
    (hlost : (tokens locale (render locale (tokens locale formula))).map label ≠
      (tokens locale formula).map label) : ¬ KeepsLabels locale Check :=
  fun hall => hlost (hall h hcheck)

theorem spacedSum (locale : Locale) : parse ⟨locale, .standard, true⟩ "=1E +A1" =
      .ok (.binary "+" (.reference "1E") (.reference "A1")) ∧
    tokens locale "=1E +A1" = [⟨"1E", .operand, .range, 1, 3⟩, ⟨"+", .infixOp, .math, 4, 5⟩,
      ⟨"A1", .operand, .range, 5, 7⟩] := by
  have hscan : Scan.ofFormula locale "=1E +A1" =
      ⟨#[⟨"1E", .operand, .unspecified, 1, 3⟩, ⟨" ", .whitespace, .unspecified, 3, 4⟩,
        ⟨"+", .infixOp, .unspecified, 4, 5⟩, ⟨"A1", .operand, .unspecified, 5, 7⟩], [], 7, "", 5,
        .ordinary, none⟩ := by cases locale <;> cbv
  constructor
  · rw [parse_of_scan true hscan rfl]
    cases locale <;> rfl
  · rw [tokens, hscan]
    cases locale <;> decide

theorem tokens_sum (locale : Locale) :
    tokens locale "1E+A1" = [⟨"1E+A1", .operand, .range, 0, 5⟩] := by
  have hscan : Scan.ofFormula locale "1E+A1" =
      ⟨#[⟨"1E+A1", .operand, .unspecified, 0, 5⟩], [], 5, "", 0, .ordinary, none⟩ := by
    cases locale <;> cbv
  rw [tokens, hscan]
  cases locale <;> decide

/-- A sign behind a cell that looks like a number without its exponent is taken as a part of it, once
the space between them is gone. -/
theorem not_keepsLabels_joints (names : Bool) :
    ¬ KeepsLabels locale (Separable locale false names) := by
  obtain ⟨hparse, htokens⟩ := spacedSum locale
  refine not_keepsLabels hparse ⟨by simp, fun _ => ?_⟩ ?_
  · rw [htokens]
    decide
  · have htext : render locale (tokens locale "=1E +A1") = "1E+A1" := by
      rw [htokens]
      cases locale <;> decide
    rw [htext, tokens_sum, htokens]
    decide

theorem nameless (locale : Locale) : parse ⟨locale, .standard, true⟩ "=@(A1)" =
      .ok (.call "" [.reference "A1"]) ∧
    tokens locale "=@(A1)" = [⟨"", .function, .start, 1, 3⟩, ⟨"A1", .operand, .range, 3, 5⟩,
      ⟨"", .function, .stop, 5, 6⟩] := by
  have hscan : Scan.ofFormula locale "=@(A1)" =
      ⟨#[⟨"@", .function, .start, 1, 3⟩, ⟨"A1", .operand, .unspecified, 3, 5⟩,
        ⟨"", .function, .stop, 5, 6⟩], [], 6, "", 3, .ordinary, none⟩ := by cases locale <;> cbv
  constructor
  · rw [parse_of_scan true hscan rfl]
    cases locale <;> rfl
  · rw [tokens, hscan]
    cases locale <;> decide

theorem tokens_group (locale : Locale) : tokens locale "(A1)" = [⟨"", .subexpr, .start, 0, 1⟩,
    ⟨"A1", .operand, .range, 1, 3⟩, ⟨"", .subexpr, .stop, 3, 4⟩] := by
  have hscan : Scan.ofFormula locale "(A1)" =
      ⟨#[⟨"", .subexpr, .start, 0, 1⟩, ⟨"A1", .operand, .unspecified, 1, 3⟩,
        ⟨"", .subexpr, .stop, 3, 4⟩], [], 4, "", 1, .ordinary, none⟩ := by cases locale <;> cbv
  rw [tokens, hscan]
  cases locale <;> decide

/-- A call whose name is empty is written as an expression in parentheses. -/
theorem not_keepsLabels_names (joints : Bool) :
    ¬ KeepsLabels locale (Separable locale joints false) := by
  obtain ⟨hparse, htokens⟩ := nameless locale
  refine not_keepsLabels hparse ⟨fun _ => ?_, by simp⟩ ?_
  · rw [htokens]
    cases locale <;> decide
  · have htext : render locale (tokens locale "=@(A1)") = "(A1)" := by
      rw [htokens]
      cases locale <;> decide
    rw [htext, tokens_group, htokens]
    decide

/-- The tokens of strictly read formulas keep their labels where they are written and read again
exactly where no number goes on with the operator behind it and no call has an empty name. -/
theorem keepsLabels_iff (locale : Locale) (joints names : Bool) :
    KeepsLabels locale (Separable locale joints names) ↔ joints && names := by
  constructor
  · intro h
    by_contra hnot
    cases joints with
    | false => exact not_keepsLabels_joints names h
    | true =>
      cases names with
      | false => exact not_keepsLabels_names true h
      | true => exact hnot rfl
  · intro hboth
    obtain ⟨rfl, rfl⟩ := Bool.and_eq_true_iff.1 hboth
    exact labels_render

/-- A formula whose three tokens are written as a text with one token. -/
theorem labels_spaced_sum : ∃ e, parse ⟨.enUS, .standard, true⟩ "=1E +A1" = .ok e ∧
    (tokens .enUS "=1E +A1").map label =
      [(.operand, .range), (.infixOp, .math), (.operand, .range)] ∧
    (tokens .enUS (render .enUS (tokens .enUS "=1E +A1"))).map label = [(.operand, .range)] := by
  obtain ⟨hparse, htokens⟩ := spacedSum .enUS
  have htext : render .enUS (tokens .enUS "=1E +A1") = "1E+A1" := by
    rw [htokens]
    decide
  refine ⟨_, hparse, ?_, ?_⟩
  · rw [htokens]
    rfl
  · rw [htext, tokens_sum]
    rfl

end Formula

end SheetFormula
