import SheetFormula.Proofs.Literals
import SheetFormula.Proofs.OneWord

/-!
# References into quoted sheets

A sheet in front of a cell stands between single quotes where its name is more than letters and digits.

1. The name with its quotes is one word whatever it holds: `Scan.absorbs_doubled` goes over the name,
   with its own quotes doubled, and stays in the path mode.
2. So the formula is one reference, to a cell anchored as the cell without its sheet:
   `Formula.parse_inSheet`, `Reference.ofText_inSheet`.
3. A range is looked for in the whole text of a reference, the name of its sheet included. A colon in the
   name is the only character that has a meaning there: `Formula.parse_inSheet_iff`.
-/

namespace SheetFormula

open Scan

/-- The text of a cell in the sheet with this name. -/
def Reference.inSheet (sheet cell : String) : String :=
  String.ofList ('\'' :: (Text.doubled '\'' sheet.toList ++ '\'' :: '!' :: cell.toList))

section

variable {locale : Locale} {sheet cell : String} {c : Char}

theorem Text.mem_doubled {quote : Char} {text : List Char} : c ∈ doubled quote text ↔ c ∈ text := by
  induction text with
  | nil => rfl
  | cons d text ih =>
    by_cases hd : d = quote
    · simp [doubled, hd, ih]
    · simp [doubled, hd, ih]

/-! ## One word -/

namespace Scan

/-- A name with its quotes doubled is read as part of a path. -/
theorem absorbs_doubled {before text unread : List Char} :
    absorbs locale before .path (Text.doubled '\'' text) unread = some .path := by
  induction text generalizing before with
  | nil => rfl
  | cons c text ih =>
    by_cases hc : c = '\''
    · -- The first quote ends the path, and the second one starts it again.
      rw [Text.doubled, if_pos hc, absorbs, absorb, if_pos rfl, Option.bind_some, absorbs]
      have hagain : ∀ rest, absorb locale .ordinary (String.ofList (before ++ ['\''])) '\'' rest =
          some .path := fun rest => by simp [absorb, absorbOrdinary, endsWord]
      rw [hagain, Option.bind_some]
      exact ih
    · rw [Text.doubled, if_neg hc, absorbs, absorb, if_neg hc, Option.bind_some]
      exact ih

theorem absorbs_inSheet (hcell : ∀ c ∈ cell.toList, c.isAlpha ∨ c.isDigit ∨ c = '$') :
    absorbs locale [] .ordinary (Reference.inSheet sheet cell).toList [] = some .ordinary := by
  have hopen : ∀ rest, absorb locale .ordinary (String.ofList []) '\'' rest = some .path :=
    fun rest => by simp [absorb, absorbOrdinary, endsWord]
  rw [Reference.inSheet, String.toList_ofList, absorbs, hopen, Option.bind_some, absorbs_append,
    absorbs_doubled, Option.bind_some, absorbs, absorb, if_pos rfl, Option.bind_some]
  refine absorbs_plain (fun hempty => by simp at hempty) fun c hc => ?_
  rcases List.mem_cons.1 hc with rfl | hc
  · decide
  · exact plain_of_name ((hcell c hc).imp_right fun h => h.imp_right .inl)

theorem word_inSheet (hcell : ∀ c ∈ cell.toList, c.isAlpha ∨ c.isDigit ∨ c = '$') :
    Word locale (Reference.inSheet sheet cell) := by
  refine ⟨fun hempty => ?_, .ordinary, absorbs_inSheet hcell, .inl rfl⟩
  have htext := congrArg String.toList hempty
  rw [Reference.inSheet, String.toList_ofList] at htext
  cases htext

end Scan

/-! ## One reference -/

theorem Locale.readLogical?_of_quote {text : String} {tail : List Char} (h : text.toList = '\'' :: tail) :
    locale.readLogical? text = none := by
  have hne : ∀ value, text.toList.map Char.toUpper ≠ (locale.logicalLiteral value).toList := by
    intro value heq
    have hhead := congrArg List.head? heq
    rw [h, List.map_cons, List.head?_cons] at hhead
    cases locale <;> cases value <;> exact absurd hhead (by decide)
  rw [readLogical?, if_neg (hne true), if_neg (hne false)]

theorem Anchoring.withoutSheet_append {cell : List Char} (front : List Char) (hcell : ∀ c ∈ cell, c ≠ '!') :
    withoutSheet (front ++ '!' :: cell) = cell ∧ withoutSheet cell = cell := by
  have hkept : ∀ c ∈ cell.reverse, (c != '!') = true := by simpa using hcell
  have hstop : ∀ behind : List Char, (∀ c ∈ behind.head?, c = '!') →
      (cell.reverse ++ behind).takeWhile (· != '!') = cell.reverse := fun behind hbehind =>
    (Number.Decimal.takeWhile_append_stop hkept fun c hc => by simp [hbehind c hc]).1
  constructor
  · rw [withoutSheet, List.reverse_append, List.reverse_cons, List.append_assoc, hstop _ (by simp),
      List.reverse_reverse]
  · rw [withoutSheet, ← List.append_nil cell.reverse, hstop _ (by simp), List.reverse_reverse]

/-- The cell of a sheet is anchored as the cell alone. -/
theorem Reference.ofText_inSheet (hcell : ∀ c ∈ cell.toList, c.isAlpha ∨ c.isDigit ∨ c = '$') :
    Reference.ofText (inSheet sheet cell) = ⟨.ofText cell, inSheet sheet cell⟩ := by
  have hplain : ∀ c ∈ cell.toList, c ≠ '!' := by
    rintro c hc rfl
    exact absurd (hcell '!' hc) (by decide)
  have hsheet : (inSheet sheet cell).toList =
      ('\'' :: (Text.doubled '\'' sheet.toList ++ ['\''])) ++ '!' :: cell.toList := by
    simp [inSheet]
  obtain ⟨hcut, hwhole⟩ := Anchoring.withoutSheet_append
    ('\'' :: (Text.doubled '\'' sheet.toList ++ ['\''])) hplain
  rw [Reference.ofText, Anchoring.ofText, hsheet, hcut, Anchoring.ofText, hwhole]

namespace Formula

/-- A formula that is a cell in a quoted sheet is read as one reference. -/
theorem parse_inSheet (limits : Parser.Limits) (strict : Bool)
    (hcell : ∀ c ∈ cell.toList, c.isAlpha ∨ c.isDigit ∨ c = '$') :
    parse ⟨locale, limits, strict⟩ ("=" ++ Reference.inSheet sheet cell) =
      .ok (.reference (Reference.inSheet sheet cell)) := by
  obtain ⟨tail, htail⟩ : ∃ tail, (Reference.inSheet sheet cell).toList = '\'' :: tail :=
    ⟨_, String.toList_ofList⟩
  have hnumber : locale.readNumber? (Reference.inSheet sheet cell) = none :=
    readNumber?_of_start htail (by decide) (by decide) (by cases locale <;> decide)
  have hoperand : ∀ start stop, Token.resolveOperand locale
      ⟨Reference.inSheet sheet cell, .operand, .unspecified, start, stop⟩ =
        ⟨Reference.inSheet sheet cell, .operand, .range, start, stop⟩ := fun start stop => by
    rw [Token.resolveOperand, hnumber, Locale.readLogical?_of_quote htail]
    rfl
  rw [parse_word (word_inSheet hcell), hoperand, Parser.parse_reference]
  rfl

/-- A cell in a quoted sheet is read as that cell, unless a colon in the name of the sheet makes a range
of it. -/
theorem parse_inSheet_iff (limits : Parser.Limits) (strict : Bool)
    (hcell : ∀ c ∈ cell.toList, c.isAlpha ∨ c.isDigit ∨ c = '$') :
    parse ⟨locale, limits, strict⟩ ("=" ++ Reference.inSheet sheet cell) =
      .ok (.cell ⟨.ofText cell, Reference.inSheet sheet cell⟩) ↔ ':' ∉ sheet.toList := by
  have hcolon : ':' ∈ (Reference.inSheet sheet cell).toList ↔ ':' ∈ sheet.toList := by
    have hnone : ':' ∉ cell.toList := fun h => absurd (hcell ':' h) (by decide)
    simp [Reference.inSheet, Text.mem_doubled, hnone]
  rw [parse_inSheet limits strict hcell, ← hcolon, ← Reference.ofText_inSheet hcell]
  rcases Expr.reference_cases (Reference.inSheet sheet cell) with ⟨hread, hnone⟩ | ⟨first, last, hread, htext⟩
  · rw [hread]
    exact iff_of_true rfl hnone
  · rw [hread]
    refine iff_of_false (by simp) (not_not_intro ?_)
    rw [htext]
    simp

theorem parse_inSheet_marks : (∀ c ∈ "$A1".toList, c.isAlpha ∨ c.isDigit ∨ c = '$') ∧
    parse ⟨.deDE, .standard, true⟩ "='it''s A1, (B2)!'!$A1" =
      .ok (.cell ⟨.mixed, "'it''s A1, (B2)!'!$A1"⟩) := by
  have hcell : ∀ c ∈ "$A1".toList, c.isAlpha ∨ c.isDigit ∨ c = '$' := by simp
  have hread := (@parse_inSheet_iff .deDE "it's A1, (B2)!" "$A1" .standard true hcell).2 (by simp)
  exact ⟨hcell, hread⟩

/-- The name of the sheet is cut in two. -/
theorem parse_colon_in_sheet : parse ⟨.enUS, .standard, true⟩ "='a:b'!A1" =
      .ok (.cellRange ⟨.unspecified, "'a"⟩ ⟨.relative, "b'!A1"⟩) ∧
    parse ⟨.enUS, .standard, true⟩ "='a:b'!A1" ≠ .ok (.cell ⟨.ofText "A1", "'a:b'!A1"⟩) := by
  have hread : parse ⟨.enUS, .standard, true⟩ "='a:b'!A1" =
      .ok (.cellRange ⟨.unspecified, "'a"⟩ ⟨.relative, "b'!A1"⟩) :=
    @parse_inSheet .enUS "a:b" "A1" .standard true (by simp)
  exact ⟨hread, by rw [hread]; simp⟩

end Formula

end

end SheetFormula
