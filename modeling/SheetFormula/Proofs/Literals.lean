import SheetFormula.Proofs.Essence
import SheetFormula.Proofs.Spelling

/-!
# Literals in the spelling of a locale

Numbers and references by the parts that they consist of.

1. A `Numeral` is written with the decimal separator of a locale. It is one word there, which no
   operator goes on with, and its number is the same for every locale.
2. A `CellName` is written alike for all locales. It is one word, and neither a number nor a logical
   literal of any of them.
-/

namespace SheetFormula

open Scan Number

/-- One or more letters. -/
structure Letters where
  chars : List Char
  ne_nil : chars ≠ []
  isAlpha : ∀ c ∈ chars, c.isAlpha

namespace Numeral

/-- The text of a number with this character in front of its fraction. -/
def spelled (separator : Char) (whole : Digits) (fraction : Option Digits)
    (exponent : Option Exponent) : List Char :=
  whole.chars ++ fraction.elim [] (fun digits => separator :: digits.chars) ++
    exponent.elim [] fun exponent => exponent.mark :: (exponent.sign ++ exponent.digits.chars)

end Numeral

/-- A decimal number literal of finite value. -/
structure Numeral where
  whole : Digits
  fraction : Option Digits
  exponent : Option Exponent
  finite : ∀ decimal, Decimal.read? (Numeral.spelled '.' whole fraction exponent) = some decimal →
    (decimal.toBinary64 false).isFinite

/-- The text of a number in a locale. -/
def Numeral.write (numeral : Numeral) (locale : Locale) : String :=
  String.ofList (spelled locale.decimalSeparator numeral.whole numeral.fraction numeral.exponent)

/-- The name of a cell: a column and a row, each of them fixed by a `$` or not. -/
structure CellName where
  columnFixed : Bool
  column : Letters
  rowFixed : Bool
  row : Digits

/-- The sign in front of a part that is fixed. -/
def CellName.dollar (isFixed : Bool) : List Char := if isFixed then ['$'] else []

def CellName.chars (name : CellName) : List Char :=
  dollar name.columnFixed ++ name.column.chars ++ (dollar name.rowFixed ++ name.row.chars)

/-! ## Numbers -/

section

variable {locale : Locale} {digits : Digits} {exponent : Exponent}

theorem Digits.readUnsigned (digits : Digits) : Decimal.readExponent.unsigned digits.chars =
    some (Nat.ofDigitChars 10 digits.chars 0 : Int) := by
  have hall : digits.chars.all Char.isDigit := List.all_eq_true.2 digits.isDigit
  rw [Decimal.readExponent.unsigned, hall]
  simp [digits.ne_nil]

theorem Exponent.read (exponent : Exponent) :
    ∃ scale, Decimal.readExponent (exponent.sign ++ exponent.digits.chars) = some scale := by
  have hunsigned := exponent.digits.readUnsigned
  rcases exponent.isSign with h | h | h <;> rw [h]
  · obtain ⟨c, tail, hdigits⟩ := List.exists_cons_of_ne_nil exponent.digits.ne_nil
    have hc : c.isDigit := exponent.digits.isDigit c (by simp [hdigits])
    have hsame : Decimal.readExponent (c :: tail) = Decimal.readExponent.unsigned (c :: tail) := by
      unfold Decimal.readExponent
      split
      · rename_i heq
        rw [(List.cons.inj heq).1] at hc
        exact absurd hc (by decide)
      · rename_i heq
        rw [(List.cons.inj heq).1] at hc
        exact absurd hc (by decide)
      · rfl
    rw [List.nil_append, hdigits, hsame, ← hdigits]
    exact ⟨_, hunsigned⟩
  · exact ⟨_, hunsigned⟩
  · refine ⟨-(Nat.ofDigitChars 10 exponent.digits.chars 0 : Int), ?_⟩
    show (Decimal.readExponent.unsigned exponent.digits.chars).map _ = _
    rw [hunsigned]
    rfl

theorem isDigit_scaled {exponent : Option Exponent} :
    ∀ c ∈ (scaled exponent).head?, c = 'E' ∨ c = 'e' := by
  cases exponent with
  | none => exact fun c hc => by cases hc
  | some exponent =>
    intro c hc
    cases hc
    exact exponent.isMark

theorem readScale_scaled (exponent : Option Exponent) :
    ∃ scale, Decimal.readScale (scaled exponent) = some scale := by
  cases exponent with
  | none => exact ⟨0, rfl⟩
  | some exponent =>
    obtain ⟨scale, hscale⟩ := exponent.read
    refine ⟨scale, ?_⟩
    show (if exponent.mark = 'e' ∨ exponent.mark = 'E' then _ else _) = _
    rw [if_pos exponent.isMark.symm, hscale]

/-- The text of a number is read. -/
theorem read?_spelled (whole : Digits) (fraction : Option Digits) (exponent : Option Exponent) :
    (Decimal.read? (Numeral.spelled '.' whole fraction exponent)).isSome := by
  obtain ⟨scale, hscale⟩ := readScale_scaled exponent
  have hmark : ∀ c : Char, c = 'E' ∨ c = 'e' → c.isDigit = false ∧ c ≠ '.' := by
    rintro c (rfl | rfl) <;> decide
  have hempty : whole.chars.isEmpty = false := by simpa using whole.ne_nil
  cases fraction with
  | none =>
    have hspan : Decimal.spanDigits (whole.chars ++ scaled exponent) =
        (whole.chars, scaled exponent) :=
      Decimal.spanDigits_append whole.isDigit fun c hc => (hmark c (isDigit_scaled c hc)).1
    have hfraction : Decimal.readFraction (scaled exponent) = ([], scaled exponent) := by
      unfold Decimal.readFraction
      split
      · rename_i heq
        exact absurd rfl (hmark '.' (isDigit_scaled '.' (by rw [heq]; rfl))).2
      · rfl
    show (Decimal.read? (whole.chars ++ [] ++ scaled exponent)).isSome
    rw [List.append_nil, Decimal.read?, hspan]
    dsimp only
    rw [hfraction]
    dsimp only
    rw [hempty, hscale]
    rfl
  | some fraction =>
    have hspan : Decimal.spanDigits (whole.chars ++ '.' :: (fraction.chars ++ scaled exponent)) =
        (whole.chars, '.' :: (fraction.chars ++ scaled exponent)) :=
      Decimal.spanDigits_append whole.isDigit fun c hc => by cases hc; decide
    have hspan' : Decimal.spanDigits (fraction.chars ++ scaled exponent) =
        (fraction.chars, scaled exponent) :=
      Decimal.spanDigits_append fraction.isDigit fun c hc => (hmark c (isDigit_scaled c hc)).1
    show (Decimal.read? (whole.chars ++ '.' :: fraction.chars ++ scaled exponent)).isSome
    have hfraction : Decimal.readFraction ('.' :: (fraction.chars ++ scaled exponent)) =
        (fraction.chars, scaled exponent) := hspan'
    rw [List.append_assoc, List.cons_append, Decimal.read?, hspan]
    dsimp only
    rw [hfraction]
    dsimp only
    rw [hempty, hscale]
    rfl

end

namespace Numeral

variable {locale : Locale} (numeral : Numeral)

theorem toList_write : (numeral.write locale).toList =
    spelled locale.decimalSeparator numeral.whole numeral.fraction numeral.exponent :=
  String.toList_ofList

/-- The parts of a number, of which no digits are missing. -/
def parts : NumberParts where
  whole := numeral.whole.chars
  fraction := numeral.fraction.map Digits.chars
  exponent := numeral.exponent
  isDigit_whole := numeral.whole.isDigit
  isDigit_fraction digits h := by
    obtain ⟨fraction, -, rfl⟩ := Option.map_eq_some_iff.1 h
    exact fraction.isDigit

theorem spelled_eq (separator : Char) :
    spelled separator numeral.whole numeral.fraction numeral.exponent = numeral.parts.text separator := by
  obtain ⟨whole, fraction, exponent, finite⟩ := numeral
  cases fraction <;> rfl

/-- A number has the same canonical text in every locale. -/
theorem canonical_write : locale.canonical (numeral.write locale) = numeral.write .enUS := by
  rw [Locale.canonical, toList_write, spelled_eq, NumberParts.map_text _ (by cases locale <;> decide)
    (by cases locale <;> decide), ← spelled_eq]
  rfl

/-- A number is read as the same number in every locale. -/
theorem readNumber?_write : (locale.readNumber? (numeral.write locale)).isSome := by
  have hpoint : ¬ (locale.decimalSeparator ≠ '.' ∧ '.' ∈ (numeral.write locale).toList) := by
    rintro ⟨hseparator, hmem⟩
    rw [toList_write, spelled_eq] at hmem
    rcases NumberParts.mem_text hmem with h | h | h
    · exact absurd h (by decide)
    · exact hseparator h.symm
    · exact absurd h (by decide)
  rw [Locale.readNumber?, if_neg hpoint, canonical_write, toList_write]
  obtain ⟨decimal, hread⟩ := Option.isSome_iff_exists.1
    (read?_spelled numeral.whole numeral.fraction numeral.exponent)
  show (((Decimal.read? (spelled '.' numeral.whole numeral.fraction numeral.exponent)).map
    (Decimal.toBinary64 false)).filter Binary64.isFinite).isSome
  rw [hread]
  simp [numeral.finite decimal hread]

theorem word_write : Word locale (numeral.write locale) := by
  rw [write, spelled_eq]
  exact NumberParts.word numeral.whole.ne_nil

/-- The last character of a number is a digit. -/
theorem not_awaitsExponent : locale.awaitsExponent (numeral.write locale) = false := by
  by_contra hawaits
  obtain ⟨mantissa, mark, htext, hmark, -⟩ :=
    Locale.split_of_awaitsExponent (Bool.not_eq_false _ ▸ hawaits)
  have hlast : ∀ (before : List Char) (digits : Digits), ∀ c ∈ (before ++ digits.chars).getLast?,
      c.isDigit := by
    intro before digits c hc
    rw [List.getLast?_append_of_ne_nil _ digits.ne_nil] at hc
    exact digits.isDigit c (List.mem_of_getLast? hc)
  have hdigit : mark.isDigit := by
    have hmem : mark ∈ (numeral.write locale).toList.getLast? := by
      rw [htext, List.getLast?_concat]
      rfl
    rw [toList_write] at hmem
    generalize numeral.whole = whole, numeral.fraction = fraction, numeral.exponent = exponent
      at hmem
    unfold spelled at hmem
    cases exponent with
    | some exponent =>
      generalize whole.chars ++ fraction.elim []
        (fun digits => locale.decimalSeparator :: digits.chars) = front at hmem
      refine hlast (front ++ exponent.mark :: exponent.sign) exponent.digits mark ?_
      rw [List.append_assoc]
      exact hmem
    | none =>
      rw [Option.elim_none, List.append_nil] at hmem
      cases fraction with
      | some fraction =>
        refine hlast (whole.chars ++ [locale.decimalSeparator]) fraction mark ?_
        rw [List.append_assoc]
        exact hmem
      | none =>
        rw [Option.elim_none, List.append_nil] at hmem
        exact hlast [] whole mark hmem
  rcases hmark with rfl | rfl <;> exact absurd hdigit (by decide)

/-- The passes see the same number in every locale. -/
theorem gist_write {start stop : Nat} :
    Token.gist locale ⟨numeral.write locale, .operand, .unspecified, start, stop⟩ =
      ⟨numeral.write .enUS, .operand, .number, 0, 0⟩ := by
  rw [Token.gist_operand rfl rfl, Token.resolveOperand, if_pos numeral.readNumber?_write,
    canonical_write]
  rfl

end Numeral

/-! ## References -/

section

variable {locale : Locale}

theorem not_isDigit_of_isAlpha {c : Char} (h : c.isAlpha) : c.isDigit = false := by
  have hletter : 'A'.val ≤ c.val ∨ 'a'.val ≤ c.val := by
    rcases Bool.or_eq_true_iff.1 h with h | h
    · exact .inl (of_decide_eq_true (p := _ ∧ _) h).1
    · exact .inr (of_decide_eq_true (Bool.and_eq_true_iff.1 h).1)
  have hbehind : '9'.val < c.val := by
    rcases hletter with h | h <;> exact UInt32.lt_of_lt_of_le (by decide) h
  rw [Char.isDigit, Bool.and_eq_false_iff]
  exact .inr (decide_eq_false (UInt32.not_le.2 hbehind))

theorem not_isAlpha_of_endsWord {c : Char} (h : endsWord c) : c.isAlpha = false := by
  have hends : ∀ d ∈ [',', ';', '"', '#', '\x7b', '\x7d', ' ', '\n', '+', '-', '*', '/', '^', '&', '=',
      '>', '<', '%', '(', ')'], d.isAlpha = false := List.all_iff_forall_prop.1 (by decide)
  exact hends c (of_decide_eq_true h)

/-- A character of a name: it ends no word, and it opens neither quotes nor brackets. -/
theorem plain_of_name {c : Char} (hc : c.isAlpha ∨ c.isDigit ∨ c = '$' ∨ c = ':') :
    endsWord c = false ∧ c ≠ '\'' ∧ c ≠ '[' := by
  refine ⟨?_, ?_, ?_⟩
  · rw [Bool.eq_false_iff]
    intro hends
    have hdigit := not_isDigit_of_endsWord hends
    have halpha := not_isAlpha_of_endsWord hends
    rcases hc with h | h | rfl | rfl
    · rw [h] at halpha
      cases halpha
    · rw [h] at hdigit
      cases hdigit
    · exact absurd hends (by decide)
    · exact absurd hends (by decide)
  all_goals
    rintro rfl
    exact absurd hc (by decide)

/-- A text of letters, digits, `$` and `:` is read as a word, unless it starts with a digit. -/
theorem absorbs_name {text : List Char} (hfirst : ∀ c ∈ text.head?, c.isDigit = false)
    (htext : ∀ c ∈ text, c.isAlpha ∨ c.isDigit ∨ c = '$' ∨ c = ':') :
    absorbs locale [] .ordinary text [] = some .ordinary :=
  absorbs_plain (fun _ => hfirst) fun c hc => plain_of_name (htext c hc)

/-- A text is no number if it starts with neither a digit nor a separator. -/
theorem readNumber?_of_start {text : String} {c : Char} {tail : List Char}
    (htext : text.toList = c :: tail) (hdigit : c.isDigit = false) (hpoint : c ≠ '.')
    (hseparator : c ≠ locale.decimalSeparator) : locale.readNumber? text = none := by
  have hread : Decimal.read? (locale.canonical text).toList = none := by
    refine Option.eq_none_iff_forall_not_mem.2 fun decimal hdecimal => ?_
    obtain ⟨d, rest, htext', hd⟩ := Decimal.head_of_read? hdecimal
    rw [Locale.canonical, String.toList_ofList, htext, List.map_cons, if_neg hseparator] at htext'
    obtain ⟨rfl, -⟩ := List.cons.inj htext'
    rcases hd with hd | hd
    · rw [hdigit] at hd
      cases hd
    · exact hpoint hd
  rw [Locale.readNumber?, hread]
  split <;> rfl

/-- A text is no number if it starts with a letter or with `$`. -/
theorem readNumber?_of_head {text : String} {c : Char} {tail : List Char}
    (htext : text.toList = c :: tail) (hc : c.isAlpha ∨ c = '$') :
    locale.readNumber? text = none := by
  rcases hc with hc | rfl
  · refine readNumber?_of_start htext (not_isDigit_of_isAlpha hc) ?_ ?_
    · rintro rfl
      exact absurd hc (by decide)
    · rintro rfl
      cases locale <;> exact absurd hc (by decide)
  · exact readNumber?_of_start htext (by decide) (by decide) (by cases locale <;> decide)

/-- Letters are a word, and no number in any locale. -/
theorem Letters.word (letters : Letters) : Word locale (String.ofList letters.chars) := by
  refine ⟨by simpa using letters.ne_nil, .ordinary, ?_, .inl rfl⟩
  rw [String.toList_ofList]
  exact absorbs_name (fun c hc => not_isDigit_of_isAlpha
    (letters.isAlpha c (List.mem_of_mem_head? hc))) fun c hc => .inl (letters.isAlpha c hc)

end

namespace CellName

/-- The text of a cell, or of the range from one cell to another. -/
def range (first : CellName) (last : Option CellName) : String :=
  String.ofList (first.chars ++ last.elim [] fun last => ':' :: last.chars)

variable {locale : Locale} {first : CellName} {last : Option CellName}

theorem mem_chars {name : CellName} {c : Char} (hc : c ∈ name.chars) :
    c.isAlpha ∨ c.isDigit ∨ c = '$' ∨ c = ':' := by
  have hdollar : ∀ isFixed, c ∈ dollar isFixed → c = '$' := by
    intro isFixed hc
    cases isFixed with
    | true => exact List.mem_singleton.1 hc
    | false => cases hc
  simp only [chars, List.mem_append] at hc
  rcases hc with (hc | hc) | hc | hc
  · exact .inr (.inr (.inl (hdollar _ hc)))
  · exact .inl (name.column.isAlpha c hc)
  · exact .inr (.inr (.inl (hdollar _ hc)))
  · exact .inr (.inl (name.row.isDigit c hc))

theorem mem_range {c : Char} (hc : c ∈ (range first last).toList) :
    c.isAlpha ∨ c.isDigit ∨ c = '$' ∨ c = ':' := by
  rw [range, String.toList_ofList] at hc
  rcases List.mem_append.1 hc with hc | hc
  · exact mem_chars hc
  · cases last with
    | none => cases hc
    | some last =>
      rcases List.mem_cons.1 hc with rfl | hc
      · exact .inr (.inr (.inr rfl))
      · exact mem_chars hc

/-- A reference starts with a letter or with `$`. -/
theorem head_range (first : CellName) (last : Option CellName) :
    ∃ c tail, (range first last).toList = c :: tail ∧ (c.isAlpha ∨ c = '$') := by
  obtain ⟨c, tail, hcolumn⟩ := List.exists_cons_of_ne_nil first.column.ne_nil
  have hc : c.isAlpha := first.column.isAlpha c (by simp [hcolumn])
  rw [range, String.toList_ofList, chars, hcolumn]
  cases first.columnFixed with
  | true => exact ⟨'$', _, rfl, .inr rfl⟩
  | false => exact ⟨c, _, rfl, .inl hc⟩

theorem absorbs_range : absorbs locale [] .ordinary (range first last).toList [] = some .ordinary := by
  obtain ⟨c, tail, htext, hc⟩ := head_range first last
  refine absorbs_name ?_ fun c => mem_range
  rw [htext]
  intro d hd
  cases hd
  rcases hc with hc | rfl
  · exact not_isDigit_of_isAlpha hc
  · decide

theorem word_range : Word locale (range first last) := by
  obtain ⟨c, tail, htext, -⟩ := head_range first last
  refine ⟨fun hempty => ?_, .ordinary, absorbs_range, .inl rfl⟩
  rw [hempty] at htext
  cases htext

theorem toUpper_of_isDigit {c : Char} (h : c.isDigit) : c.toUpper = c := by
  unfold Char.toUpper
  refine dif_neg fun hlower => ?_
  simp only [Char.isDigit, Bool.and_eq_true, decide_eq_true_eq] at h
  exact absurd (UInt32.le_trans hlower.1 h.2) (by decide)

/-- A reference is no logical literal. -/
theorem readLogical?_range : locale.readLogical? (range first last) = none := by
  obtain ⟨c, tail, hrow⟩ := List.exists_cons_of_ne_nil first.row.ne_nil
  have hdigit : c.isDigit := first.row.isDigit c (by simp [hrow])
  have hmem : c ∈ (range first last).toList := by simp [range, chars, hrow]
  have hupper : c ∈ (range first last).toList.map Char.toUpper :=
    List.mem_map.2 ⟨c, hmem, toUpper_of_isDigit hdigit⟩
  have hliteral : ∀ value, ∀ d ∈ (locale.logicalLiteral value).toList, d.isDigit = false := by
    intro value
    cases locale <;> cases value <;> exact List.all_iff_forall_prop.1 (by decide)
  have hne : ∀ value,
      (range first last).toList.map Char.toUpper ≠ (locale.logicalLiteral value).toList := by
    intro value heq
    rw [heq] at hupper
    rw [hliteral value c hupper] at hdigit
    cases hdigit
  rw [Locale.readLogical?]
  simp only [hne, if_false]

theorem gist_range {start stop : Nat} :
    Token.gist locale ⟨range first last, .operand, .unspecified, start, stop⟩ =
      ⟨range first last, .operand, .range, 0, 0⟩ := by
  obtain ⟨c, tail, htext, hc⟩ := head_range first last
  rw [Token.gist_operand rfl rfl, Token.resolveOperand, readNumber?_of_head htext hc,
    readLogical?_range]
  rfl

end CellName

/-! ## Logical literals -/

namespace Locale

variable {locale : Locale} {value : Bool}

theorem absorbs_logicalLiteral :
    absorbs locale [] .ordinary (locale.logicalLiteral value).toList [] = some .ordinary := by
  cases locale <;> cases value <;> rfl

theorem word_logicalLiteral : Word locale (locale.logicalLiteral value) :=
  ⟨by cases locale <;> cases value <;> decide, .ordinary, absorbs_logicalLiteral, .inl rfl⟩

theorem gist_logicalLiteral {start stop : Nat} :
    Token.gist locale ⟨locale.logicalLiteral value, .operand, .unspecified, start, stop⟩ =
      ⟨Locale.enUS.logicalLiteral value, .operand, .logical, 0, 0⟩ := by
  obtain ⟨c, tail, htext, hc⟩ : ∃ c tail, (locale.logicalLiteral value).toList = c :: tail ∧
      (c.isAlpha ∨ c = '$') := by
    cases locale <;> cases value <;> exact ⟨_, _, rfl, by decide⟩
  have hlogical : locale.readLogical? (locale.logicalLiteral value) = some value := by
    cases locale <;> cases value <;> decide
  rw [Token.gist_operand rfl rfl, Token.resolveOperand, readNumber?_of_head htext hc, hlogical]
  rfl

end Locale

end SheetFormula
