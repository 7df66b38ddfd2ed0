import SheetFormula.Proofs.Disguise
import SheetFormula.Proofs.RoundTrip

/-!
# Which texts tell what they mean

Main statement: `Formula.tellsApart_iff`, when formulas with the same printed text mean the same.

1. Distinct expressions with one text have the same raw tokens, hence the same marked form, hence are
   the same: `eq_of_display_eq`.
2. `distinctBy` takes the parts of `distinct` one by one. None of them can be left out: without it, two
   expressions have one text.
-/

namespace SheetFormula

open Token

namespace Expr

/-- What `distinct` asks for in parts: no union stands in an argument without parentheses, no sign
belongs to a word in front of it, and no name is empty. -/
def distinctBy (unions signs names : Bool) : Expr → Bool
  | binary op left _ =>
    !signs || !((op == "+" || op == "-") && !guardedOnLeft op left && left.awaitsExponent)
  | call name args => (!names || name != "") && (!unions || args.all fun arg => !arg.exposesUnion)
  | _ => true

theorem distinctBy_all : distinctBy true true true = distinct := by
  funext e
  cases e <;> simp [distinctBy, distinct]

end Expr

namespace Formula

/-- The text that is printed of a formula tells what it means if it is distinct. -/
theorem eq_of_display_eq {limits limits' : Parser.Limits} {formula formula' : String} {e e' : Expr}
    (h : parse ⟨.enUS, limits, true⟩ formula = .ok e)
    (h' : parse ⟨.enUS, limits', true⟩ formula' = .ok e') (hdistinct : e.everywhere Expr.distinct)
    (hdistinct' : e'.everywhere Expr.distinct) (hsame : e.display = e'.display) : e = e' := by
  have hprintable := Expr.printable_of_parse h
  have hprintable' := Expr.printable_of_parse h'
  obtain ⟨-, hspells⟩ := Scan.spells_ofFormula hprintable hdistinct
  obtain ⟨-, hspells'⟩ := Scan.spells_ofFormula hprintable' hdistinct'
  rw [hsame] at hspells
  have hmarked : e.marked = e'.marked :=
    Option.some.inj ((parse_of_writes hspells.marks).symm.trans (parse_of_writes hspells'.marks))
  calc e = e.marked.unmarked := (Expr.unmarked_marked hprintable).symm
    _ = e'.marked.unmarked := by rw [hmarked]
    _ = e' := Expr.unmarked_marked hprintable'

/-- Whether the printed text tells what a formula means, among the formulas whose meanings pass a
check everywhere. -/
def TellsApart (check : Expr → Bool) : Prop :=
  ∀ {limits limits' : Parser.Limits} {formula formula' : String} {e e' : Expr},
    parse ⟨.enUS, limits, true⟩ formula = .ok e → parse ⟨.enUS, limits', true⟩ formula' = .ok e' →
      e.everywhere check → e'.everywhere check → e.display = e'.display → e = e'

/-! ### Texts of two meanings -/

theorem printable_cell {text : String} (hword : Scan.Word .enUS text)
    (hnumber : Locale.enUS.readNumber? text = none)
    (hlogical : Locale.enUS.readLogical? text = none) : (Expr.reference text).Printable :=
  .leaf (.reference hword hnumber hlogical)

/-- What is printed of a faithful expression is a formula. -/
theorem exists_parse {e : Expr} (h : e.Printable) (hfaithful : e.everywhere Expr.faithful) :
    ∃ limits, parse ⟨.enUS, limits, true⟩ ("=" ++ e.display) = .ok e :=
  ⟨⟨_, _⟩, parse_printed true h hfaithful (Nat.le_refl _) (Nat.le_refl _)⟩

/-- An expression with the text of another one, which is faithful, has to fail the check. -/
theorem not_tellsApart {check : Expr → Bool} {limits : Parser.Limits} {formula : String}
    {e e' : Expr} (h : parse ⟨.enUS, limits, true⟩ formula = .ok e) (h' : e'.Printable)
    (hfaithful : e'.everywhere Expr.faithful) (hcheck : e.everywhere check)
    (hcheck' : e'.everywhere check) (hsame : e.display = e'.display) (hne : e ≠ e') :
    ¬ TellsApart check := by
  obtain ⟨limits', hparse⟩ := exists_parse h' hfaithful
  exact fun hall => hne (hall h hparse hcheck hcheck' hsame)

theorem printable_A1 : (Expr.reference "A1").Printable :=
  printable_cell ⟨by decide, .ordinary, rfl, .inl rfl⟩ (by decide) (by decide)

theorem printable_B1 : (Expr.reference "B1").Printable :=
  printable_cell ⟨by decide, .ordinary, rfl, .inl rfl⟩ (by decide) (by decide)

theorem parse_union : parse ⟨.enUS, .standard, true⟩ "=F((A1,B1))" =
    .ok (.call "F" [.binary "," (.reference "A1") (.reference "B1")]) := by
  have hscan : Scan.ofFormula .enUS "=F((A1,B1))" =
      ⟨#[⟨"F", .function, .start, 1, 3⟩, ⟨"", .subexpr, .start, 3, 4⟩,
        ⟨"A1", .operand, .unspecified, 4, 6⟩, ⟨",", .infixOp, .union, 6, 7⟩,
        ⟨"B1", .operand, .unspecified, 7, 9⟩, ⟨"", .subexpr, .stop, 9, 10⟩,
        ⟨"", .function, .stop, 10, 11⟩], [], 11, "", 7, .ordinary, none⟩ := by cbv
  rw [parse_of_scan true hscan rfl]
  rfl

/-- A union as the only argument has the text of two arguments. -/
theorem not_tellsApart_unions (signs names : Bool) :
    ¬ TellsApart (Expr.distinctBy false signs names) := by
  have hprintable : (Expr.call "F" [.reference "A1", .reference "B1"]).Printable := by
    refine .call (.inr ⟨by decide, .ordinary, rfl, .inl rfl⟩) (by simp) ?_
    simp only [List.mem_cons, List.not_mem_nil, or_false, forall_eq_or_imp, forall_eq]
    exact ⟨fun _ => printable_A1, fun _ => printable_B1⟩
  refine not_tellsApart parse_union hprintable (by decide) ?_ ?_ (by decide) (by simp)
  · cases signs <;> cases names <;> decide
  · cases signs <;> cases names <;> decide

/-- A sign behind a cell that looks like a number without its exponent is taken as a part of it. -/
theorem not_tellsApart_signs (unions names : Bool) :
    ¬ TellsApart (Expr.distinctBy unions false names) := by
  have hscan : Scan.ofFormula .enUS "=(1E)--A1" =
      ⟨#[⟨"", .subexpr, .start, 1, 2⟩, ⟨"1E", .operand, .unspecified, 2, 4⟩,
        ⟨"", .subexpr, .stop, 4, 5⟩, ⟨"-", .infixOp, .unspecified, 5, 6⟩,
        ⟨"-", .infixOp, .unspecified, 6, 7⟩, ⟨"A1", .operand, .unspecified, 7, 9⟩], [], 9, "", 7,
        .ordinary, none⟩ := by cbv
  have hparse : parse ⟨.enUS, .standard, true⟩ "=(1E)--A1" =
      .ok (.binary "-" (.reference "1E") (.unary "-" (.reference "A1"))) := by
    rw [parse_of_scan true hscan rfl]
    rfl
  have hword : Scan.Word .enUS "1E-" := ⟨by decide, .number, by decide, .inr rfl⟩
  have hop : Operator.binaryPrecedence? "-" = some 3 := by decide
  have hprintable : (Expr.binary "-" (.reference "1E-") (.reference "A1")).Printable :=
    .binary hop (printable_cell hword (by decide) (by decide)) printable_A1
  have hcell : Expr.reference "A1" = .cell (.ofText "A1") := rfl
  refine not_tellsApart hparse hprintable (by decide) ?_ ?_ (by decide) (by simp [hcell])
  · cases unions <;> cases names <;> decide
  · cases unions <;> cases names <;> decide

/-- A call whose name is empty has the text of an expression in parentheses. -/
theorem not_tellsApart_names (unions signs : Bool) :
    ¬ TellsApart (Expr.distinctBy unions signs false) := by
  have hscan : Scan.ofFormula .enUS "=@(A1+B1)*A1" =
      ⟨#[⟨"@", .function, .start, 1, 3⟩, ⟨"A1", .operand, .unspecified, 3, 5⟩,
        ⟨"+", .infixOp, .unspecified, 5, 6⟩, ⟨"B1", .operand, .unspecified, 6, 8⟩,
        ⟨"", .function, .stop, 8, 9⟩, ⟨"*", .infixOp, .unspecified, 9, 10⟩,
        ⟨"A1", .operand, .unspecified, 10, 12⟩], [], 12, "", 10, .ordinary, none⟩ := by cbv
  have hparse : parse ⟨.enUS, .standard, true⟩ "=@(A1+B1)*A1" = .ok (.binary "*"
      (.call "" [.binary "+" (.reference "A1") (.reference "B1")]) (.reference "A1")) := by
    rw [parse_of_scan true hscan rfl]
    rfl
  have hsum : Operator.binaryPrecedence? "+" = some 3 := by decide
  have hproduct : Operator.binaryPrecedence? "*" = some 4 := by decide
  have hprintable : (Expr.binary "*" (.binary "+" (.reference "A1") (.reference "B1"))
      (.reference "A1")).Printable :=
    .binary hproduct (.binary hsum printable_A1 printable_B1) printable_A1
  refine not_tellsApart hparse hprintable (by decide) ?_ ?_ (by decide) (by simp)
  · cases unions <;> cases signs <;> decide
  · cases unions <;> cases signs <;> decide

/-- The printed text tells what a formula means exactly where no union stands in an argument without
parentheses, no sign belongs to a word in front of it, and no name is empty. -/
theorem tellsApart_iff (unions signs names : Bool) :
    TellsApart (Expr.distinctBy unions signs names) ↔ unions && signs && names := by
  constructor
  · intro h
    by_contra hnot
    cases unions with
    | false => exact not_tellsApart_unions signs names h
    | true =>
      cases signs with
      | false => exact not_tellsApart_signs true names h
      | true =>
        cases names with
        | false => exact not_tellsApart_names true true h
        | true => exact hnot rfl
  · intro hall
    simp only [Bool.and_eq_true] at hall
    obtain ⟨⟨rfl, rfl⟩, rfl⟩ := hall
    rw [Expr.distinctBy_all]
    exact eq_of_display_eq

/-- Two formulas with one text. -/
theorem display_union_argument : ∃ e e',
    parse ⟨.enUS, .standard, true⟩ "=F((A1,B1))" = .ok e ∧
    parse ⟨.enUS, .standard, true⟩ "=F(A1,B1)" = .ok e' ∧
    e.display = "F(A1,B1)" ∧ e'.display = "F(A1,B1)" ∧ e ≠ e' := by
  have hscan : Scan.ofFormula .enUS "=F(A1,B1)" =
      ⟨#[⟨"F", .function, .start, 1, 3⟩, ⟨"A1", .operand, .unspecified, 3, 5⟩,
        ⟨",", .argument, .unspecified, 5, 6⟩, ⟨"B1", .operand, .unspecified, 6, 8⟩,
        ⟨"", .function, .stop, 8, 9⟩], [], 9, "", 6, .ordinary, none⟩ := by cbv
  have hparse : parse ⟨.enUS, .standard, true⟩ "=F(A1,B1)" =
      .ok (.call "F" [.reference "A1", .reference "B1"]) := by
    rw [parse_of_scan true hscan rfl]
    rfl
  exact ⟨_, _, parse_union, hparse, by decide, by decide, by simp⟩

end Formula

end SheetFormula
