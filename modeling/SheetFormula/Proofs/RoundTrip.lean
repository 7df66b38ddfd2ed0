import Mathlib
import SheetFormula.Proofs.Printed
import SheetFormula.Proofs.Settling

/-!
# Printing undoes parsing

Main statement: `Formula.parse_display`, that the text of what a formula means is read back as it.

1. `faithful` holds of the expressions whose text is read back. What it leaves out is read as
   something else.
2. `Spells.writes` is the induction over the tokens of a text. A percent sign takes what is written
   without parentheses in front of it, of which it has to be all: `takesPercent`.
3. A faithful expression is distinct, so that its text is scanned into the tokens that spell it.
-/

namespace SheetFormula

open Token Grammar

namespace Expr

/-- Whether an expression can be written so that it reads back. -/
def faithful : Expr → Bool
  | binary op _ _ => op != ","
  | unary op (binary op' _ _) => !(op == percentSign && op' == " ")
  | cell ref => !Locale.enUS.awaitsExponent ref.raw
  | call name _ => name != "" && name.toList.head? != some '@'
  | _ => true

/-- Whether the postfix operators behind the text of an expression are read with all of it. -/
def takesPercent : Expr → Bool
  | number _ => false
  | unary op _ => op == percentSign
  | binary _ _ _ => false
  | _ => true

theorem isWhole_of_takesPercent {e : Expr} (h : e.takesPercent) : isWhole e := by
  cases e with
  | number => cases h
  | _ => rfl

/-- A percent sign behind what is written without parentheses is read with all of it. -/
theorem takesPercent_of_faithful {operand : Expr} (h : (unary percentSign operand).faithful)
    (hoperand : operand.faithful) (hneeded : operand.guardedFrom percentSign = false) :
    operand.takesPercent := by
  rw [guardedFrom, if_pos rfl] at hneeded
  cases operand with
  | number => cases hneeded
  | unary op _ => simpa [guardedFromPercent, takesPercent] using hneeded
  | binary op left right =>
    obtain ⟨precedence, -, hsix, hentry⟩ := precedence_of_unguarded hneeded
    have hall : ∀ entry ∈ Operator.binaryTable, 6 ≤ entry.2 → entry.1 = " " ∨ entry.1 = "," := by
      decide
    rcases hall _ hentry hsix with rfl | rfl
    · simp [faithful] at h
    · simp [faithful] at hoperand
  | _ => rfl

end Expr

namespace Token

open SheetFormula.Expr

/-- The raw tokens of the text of a faithful expression are read as that expression. -/
theorem Spells.writes {needed : Bool} {e : Expr} {raws : List Token} (h : Spells needed e raws)
    (hfaithful : e.everywhere faithful) : Writes (level needed e) raws fun tokens =>
      Climbs (level needed e) e tokens ∧ (needed || e.takesPercent → Holds e tokens) := by
  induction h with
  | @leaf e start stop hleaf =>
    have hlevel : level false e = 9 := precedence_leaf hleaf
    rw [hlevel]
    refine (writes_leaf hleaf).imp fun tokens ⟨hclimbs, hholds⟩ => ⟨hclimbs, fun htakes =>
      hholds (isWhole_of_takesPercent htakes)⟩
  | @minus operand sign tokens hsign _ ih =>
    rw [everywhere, Bool.and_eq_true] at hfaithful
    refine writes_minus (ih hfaithful.2) hsign fun sign' tokens hminus hvalue hread => ⟨?_, ?_⟩
    · exact climbs_minus hread.1 (level_minus operand) hminus hvalue
    · simp [takesPercent, percentSign]
  | @percent operand sign tokens hsign _ ih =>
    rw [everywhere, Bool.and_eq_true] at hfaithful
    have hpercent : sign.isPostfixOp := by simp [isPostfixOp, hsign.1]
    have htakes : operand.guardedFrom percentSign || operand.takesPercent := by
      cases hneeded : operand.guardedFrom percentSign with
      | true => rfl
      | false => exact takesPercent_of_faithful hfaithful.1 (of_everywhere hfaithful.2) hneeded
    refine writes_percent (ih hfaithful.2) hpercent fun tokens hread => ?_
    have hholds : Holds (.unary percentSign operand) (tokens ++ [sign]) := by
      rw [← hsign.2]
      exact holds_percent (hread.2 htakes) hpercent
    exact ⟨climbs_of_holds hholds, fun _ => hholds⟩
  | @binary op precedence left right sign front back hop hsign _ _ ihleft ihright =>
    rw [everywhere, Bool.and_eq_true, Bool.and_eq_true] at hfaithful
    have hlevel : level false (.binary op left right) = precedence :=
      (precedence_binary hop : (Expr.binary op left right).precedence = precedence)
    rw [hlevel]
    refine writes_binary hop hsign (ihleft hfaithful.1.2) (ihright hfaithful.2) (level_left hop left)
      (level_right hop right) fun sign' tokens tokens' hbinary hvalue hread hread' => ⟨?_, ?_⟩
    · rw [← hvalue]
      exact climbs_binary hbinary (by rw [hvalue, hop]) hread.1 hread'.1 (level_left hop left)
        (level_right hop right)
    · simp [takesPercent]
  | @call name opener close inner slots hopener hclose hne hempty _ hjoined ih =>
    rw [everywhere, Bool.and_eq_true] at hfaithful
    obtain ⟨hown, hargs⟩ := hfaithful
    have hname : withoutAt opener.value = name := by
      rw [hopener.2]
      refine withoutAt_of_not_at fun rest hrest => ?_
      simp [faithful, hrest] at hown
    have hslots : ∀ slot ∈ slots, Settles slot.2 (FillsSlot slot.1) := by
      intro slot hslot
      by_cases harg : slot.1 = .emptyArgument
      · rw [hempty slot hslot harg]
        exact settles_nil.imp fun tokens htokens => .inl ⟨harg, htokens⟩
      · have hwrites := ih slot hslot harg (everywhereIn_iff.1 hargs _ (List.mem_map_of_mem hslot))
        exact hwrites.settled.imp fun tokens hread => .inr ⟨_, hread.1⟩
    exact (writes_call hopener.1 hname hclose hne hslots hjoined).imp fun tokens hholds =>
      ⟨climbs_of_holds hholds, fun _ => hholds⟩
  | group hopens hcloses _ ih =>
    refine (writes_group hopens hcloses ((ih hfaithful).settled.imp fun tokens hread =>
      hread.1)).imp fun tokens hholds => ⟨climbs_of_holds hholds, fun _ => hholds⟩

end Token

namespace Expr

/-- The text of a faithful expression is passed in front of every sign and inside every bracket. -/
theorem Printable.unexposed {e : Expr} (h : e.Printable) (hfaithful : e.everywhere faithful) :
    e.exposesUnion = false ∧ e.awaitsExponent = false := by
  induction h with
  | leaf h =>
    have hown := of_everywhere hfaithful
    rcases h with _ | _ | _ | ⟨_, _, _⟩ | _
    case reference value _ _ _ =>
      rcases reference_cases value with ⟨h, -⟩ | ⟨first, last, h, -⟩ <;>
        simp_all [faithful, exposesUnion, awaitsExponent]
    all_goals exact ⟨rfl, rfl⟩
  | minus _ ih | percent _ ih =>
    rw [everywhere, Bool.and_eq_true] at hfaithful
    obtain ⟨hunion, hsign⟩ := ih hfaithful.2
    simp [exposesUnion, awaitsExponent, hunion, hsign]
  | binary _ _ _ ihleft ihright =>
    rw [everywhere, Bool.and_eq_true, Bool.and_eq_true] at hfaithful
    obtain ⟨⟨hown, hleft⟩, hright⟩ := hfaithful
    obtain ⟨hunion, -⟩ := ihleft hleft
    obtain ⟨hunion', hsign⟩ := ihright hright
    simp only [faithful, bne_iff_ne] at hown
    simp [exposesUnion, awaitsExponent, hown, hunion, hunion', hsign]
  | call => exact ⟨rfl, rfl⟩

theorem Printable.distinct_of_faithful {e : Expr} (h : e.Printable)
    (hfaithful : e.everywhere faithful) : e.everywhere distinct := by
  induction h with
  | @leaf e h =>
    have hleaf := h.isLeaf
    cases e with
    | unary | binary | call => cases hleaf
    | _ => rfl
  | minus _ ih | percent _ ih =>
    rw [everywhere, Bool.and_eq_true] at hfaithful ⊢
    exact ⟨rfl, ih hfaithful.2⟩
  | @binary op left right _ _ hleft _ ihleft ihright =>
    rw [everywhere, Bool.and_eq_true, Bool.and_eq_true] at hfaithful ⊢
    refine ⟨⟨?_, ihleft hfaithful.1.2⟩, ihright hfaithful.2⟩
    simp [distinct, (hleft.unexposed hfaithful.1.2).2]
  | @call name args _ _ hargs ih =>
    rw [everywhere, Bool.and_eq_true, everywhereIn_iff] at hfaithful ⊢
    obtain ⟨hown, hin⟩ := hfaithful
    refine ⟨?_, fun arg harg => ?_⟩
    · simp only [faithful, Bool.and_eq_true] at hown
      simp only [distinct, Bool.and_eq_true, List.all_eq_true]
      refine ⟨hown.1, fun arg harg => ?_⟩
      by_cases hempty : arg = .emptyArgument
      · rw [hempty]
        rfl
      · simp [((hargs arg harg hempty).unexposed (hin arg harg)).1]
    · by_cases hempty : arg = .emptyArgument
      · rw [hempty]
        rfl
      · exact ih arg harg hempty (hin arg harg)

end Expr

namespace Formula

/-- The text of a faithful expression is read as it. -/
theorem parse_printed {limits : Parser.Limits} {e : Expr} (strict : Bool) (h : e.Printable)
    (hfaithful : e.everywhere Expr.faithful)
    (hdepth : (Formula.tokens .enUS ("=" ++ e.display)).length ≤ limits.depth)
    (hheight : e.height ≤ limits.height) :
    parse ⟨.enUS, limits, strict⟩ ("=" ++ e.display) = .ok e := by
  obtain ⟨hfault, hspells⟩ := Scan.spells_ofFormula h (h.distinct_of_faithful hfaithful)
  have hwrites := (hspells.writes hfaithful).imp fun tokens hread => hread.1
  have hparse : Parser.parse limits (Formula.tokens .enUS ("=" ++ e.display)) = .ok e :=
    Parser.parse_of_grammar (parse_of_writes hwrites) hdepth hheight
  rw [parse_of_faultless strict hfault, hparse]
  rfl

/-- Printing undoes parsing: the text of what a formula means is read back as it. Left out are
unions, percent signs behind an intersection, cells that look like a number without its exponent,
and calls whose name is empty or starts with `@`. -/
theorem parse_display {limits limits' : Parser.Limits} {formula : String} {e : Expr} (strict : Bool)
    (h : parse ⟨.enUS, limits, true⟩ formula = .ok e) (hfaithful : e.everywhere Expr.faithful)
    (hdepth : (Formula.tokens .enUS ("=" ++ e.display)).length ≤ limits'.depth)
    (hheight : e.height ≤ limits'.height) :
    parse ⟨.enUS, limits', strict⟩ ("=" ++ e.display) = .ok e :=
  parse_printed strict (Expr.printable_of_parse h) hfaithful hdepth hheight

/-- Parentheses and spaces that change nothing are not printed. -/
theorem parse_display_sum : parse ⟨.enUS, .standard, false⟩ "=A1+B1%" =
    .ok (.binary "+" (.reference "A1") (.unary "%" (.reference "B1"))) := by
  have hscan : Scan.ofFormula .enUS "= (A1) + B1%" =
      ⟨#[⟨" ", .whitespace, .unspecified, 1, 2⟩, ⟨"", .subexpr, .start, 2, 3⟩,
        ⟨"A1", .operand, .unspecified, 3, 5⟩, ⟨"", .subexpr, .stop, 5, 6⟩,
        ⟨" ", .whitespace, .unspecified, 6, 7⟩, ⟨"+", .infixOp, .unspecified, 7, 8⟩,
        ⟨" ", .whitespace, .unspecified, 8, 9⟩, ⟨"B1", .operand, .unspecified, 9, 11⟩,
        ⟨"%", .postfixOp, .unspecified, 11, 12⟩], [], 12, "", 9, .ordinary, none⟩ := by cbv
  have hparse : parse ⟨.enUS, .standard, true⟩ "= (A1) + B1%" =
      .ok (.binary "+" (.reference "A1") (.unary "%" (.reference "B1"))) := by
    rw [parse_of_scan true hscan rfl]
    rfl
  have hprinted : (Scan.ofFormula .enUS "=A1+B1%").tokens =
      #[⟨"A1", .operand, .unspecified, 1, 3⟩, ⟨"+", .infixOp, .unspecified, 3, 4⟩,
        ⟨"B1", .operand, .unspecified, 4, 6⟩, ⟨"%", .postfixOp, .unspecified, 6, 7⟩] := by cbv
  have hlength : (tokens .enUS "=A1+B1%").length ≤ Parser.Limits.standard.depth := by
    rw [tokens, hprinted]
    decide
  have hdisplay : "=" ++ (Expr.binary "+" (.reference "A1") (.unary "%" (.reference "B1"))).display =
      "=A1+B1%" := by decide
  rw [← hdisplay] at hlength ⊢
  exact parse_display false hparse (by decide) hlength (by decide)

end Formula

end SheetFormula
