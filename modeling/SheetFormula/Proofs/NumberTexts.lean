import Mathlib
import SheetFormula.Proofs.Literals
import SheetFormula.Proofs.OneWord
import SheetFormula.Proofs.Turns

/-!
# Texts of numbers

Two places say what a number is: `Locale.readNumber?` reads a finished operand, and a scan takes the
characters of a number one by one. They agree on the numbers that start with a digit, and on those that
start with the point of a locale and have no sign: `Formula.number_of_keepsWhole`.

1. What is read as a number consists of the parts of one: `Locale.parts_of_readNumber?`.
2. A number with a whole part is one word in the number mode. One that starts with a point is read as a
   name would be: `Locale.word_of_readNumber?`.
3. Every other number is taken apart: `Formula.takes_apart`. A comma in front is the union operator, and
   a sign behind an exponent mark belongs to a number only in the number mode, which needs a digit.
-/

namespace SheetFormula

open Scan Number

/-! ## The parts of what is read -/

namespace Number.Decimal

theorem digits_of_unsigned {text : List Char} {value : Int} (h : readExponent.unsigned text = some value) :
    ∃ digits : Digits, digits.chars = text := by
  unfold readExponent.unsigned at h
  split at h
  · cases h
  · rename_i hdigits
    simp only [Bool.or_eq_true, List.isEmpty_iff, Bool.not_eq_true', not_or, Bool.not_eq_false,
      List.all_eq_true] at hdigits
    exact ⟨⟨text, hdigits.1, hdigits.2⟩, rfl⟩

theorem exponent_of_readScale {text : List Char} {scale : Int} (h : readScale text = some scale) :
    ∃ exponent, text = scaled exponent := by
  unfold readScale at h
  split at h
  · exact ⟨none, rfl⟩
  · rename_i c rest
    split_ifs at h with hmark
    have hscaled : ∀ (sign tail : List Char) (value : Int), rest = sign ++ tail →
        (sign = [] ∨ sign = ['+'] ∨ sign = ['-']) → readExponent.unsigned tail = some value →
        ∃ exponent, c :: rest = scaled exponent := by
      rintro sign tail value rfl hsign hunsigned
      obtain ⟨digits, rfl⟩ := digits_of_unsigned hunsigned
      exact ⟨some ⟨c, sign, digits, hmark.symm, hsign⟩, rfl⟩
    unfold readExponent at h
    split at h
    · exact hscaled ['+'] _ _ rfl (.inr (.inl rfl)) h
    · obtain ⟨value, hunsigned, -⟩ := Option.map_eq_some_iff.1 h
      exact hscaled ['-'] _ _ rfl (.inr (.inr rfl)) hunsigned
    · exact hscaled [] _ _ rfl (.inl rfl) h

theorem digits_of_takeWhile {text : List Char} : ∀ c ∈ text.takeWhile Char.isDigit, c.isDigit :=
  fun _ hc => List.mem_takeWhile_imp hc

/-- What is read as a decimal consists of the parts of a number. -/
theorem parts_of_read? {text : List Char} {d : Decimal} (h : read? text = some d) :
    ∃ parts : NumberParts, text = parts.text '.' ∧ (parts.whole = [] → parts.fraction ≠ none) := by
  have hsplit : text = text.takeWhile Char.isDigit ++ text.dropWhile Char.isDigit :=
    List.takeWhile_append_dropWhile.symm
  rw [read?, spanDigits] at h
  dsimp only at h
  generalize hwhole : text.takeWhile Char.isDigit = whole at h hsplit
  generalize text.dropWhile Char.isDigit = rest at h hsplit
  have hdigits : ∀ c ∈ whole, c.isDigit := hwhole ▸ digits_of_takeWhile
  split_ifs at h with hempty
  obtain ⟨scale, hscale, -⟩ := Option.map_eq_some_iff.1 h
  obtain ⟨exponent, hexponent⟩ := exponent_of_readScale hscale
  unfold readFraction at hempty hexponent
  split at hempty
  · rename_i tail
    refine ⟨⟨whole, some (tail.takeWhile Char.isDigit), exponent, hdigits, ?_⟩, ?_, fun _ => by simp⟩
    · rintro digits hfraction
      cases hfraction
      exact digits_of_takeWhile
    · have htail : tail = tail.takeWhile Char.isDigit ++ scaled exponent := by
        rw [← hexponent]
        exact List.takeWhile_append_dropWhile.symm
      rw [hsplit, NumberParts.text, NumberParts.mantissa]
      simp [← htail]
  · refine ⟨⟨whole, none, exponent, hdigits, fun _ h => by cases h⟩, ?_, fun hnone => ?_⟩
    · rw [hsplit, NumberParts.text, NumberParts.mantissa]
      simpa using hexponent
    · rw [show whole = [] from hnone] at hempty
      exact absurd rfl hempty

end Number.Decimal

/-- A sign stands in the power of ten. -/
theorem NumberParts.sign_of_mem {parts : NumberParts} {separator : Char}
    (hseparator : separator ∉ ['+', '-'])
    (h : '+' ∈ parts.text separator ∨ '-' ∈ parts.text separator) :
    ∃ exponent sign, parts.exponent = some exponent ∧ exponent.sign = [sign] ∧ closesWord sign := by
  obtain ⟨c, hc, hmem⟩ : ∃ c ∈ ['+', '-'], c ∈ parts.text separator := by simpa using h
  have hdigit : c.isDigit = false := by
    have hnone : ∀ d ∈ ['+', '-'], d.isDigit = false := by simp
    exact hnone c hc
  rcases List.mem_append.1 hmem with hmem | hmem
  · rcases mem_mantissa hmem with h | rfl
    · rw [hdigit] at h
      cases h
    · exact absurd hc hseparator
  · cases hexponent : parts.exponent with
    | none =>
      rw [hexponent] at hmem
      cases hmem
    | some exponent =>
      refine ⟨exponent, ?_⟩
      rcases exponent.isSign with hsign | hsign | hsign
      · rw [hexponent, scaled, Option.elim_some, hsign, List.nil_append] at hmem
        rcases List.mem_cons.1 hmem with rfl | hmem
        · have hmark := exponent.isMark
          rcases hmark with h | h <;> rw [h] at hc <;> exact absurd hc (by decide)
        · rw [exponent.digits.isDigit c hmem] at hdigit
          cases hdigit
      · exact ⟨'+', rfl, hsign, by decide⟩
      · exact ⟨'-', rfl, hsign, by decide⟩

section

variable {locale : Locale} {text : String} {value : Binary64}

namespace Locale

/-- A number is read from its canonical text, and so is its value. -/
theorem canonical_of_readNumber? (h : locale.readNumber? text = some value) :
    Binary64.ofText? (locale.canonical text) = some value ∧
      ∃ d, Decimal.read? (locale.canonical text).toList = some d := by
  unfold readNumber? at h
  split at h
  · cases h
  · obtain ⟨d, hread, hvalue⟩ := Option.map_eq_some_iff.1 (Option.filter_eq_some_iff.1 h).1
    exact ⟨(Decimal.ofText?_of_read? hread).trans (congrArg some hvalue), d, hread⟩

/-- What a locale reads as a number consists of the parts of one. -/
theorem parts_of_readNumber? (h : locale.readNumber? text = some value) :
    ∃ parts : NumberParts, text.toList = parts.text locale.decimalSeparator ∧
      (parts.whole = [] → parts.fraction ≠ none) := by
  obtain ⟨-, d, hread⟩ := canonical_of_readNumber? h
  obtain ⟨parts, hparts, hne⟩ := Decimal.parts_of_read? hread
  refine ⟨parts, ?_, hne⟩
  have hspelled := Token.spellNumber_canonical (Option.isSome_of_eq_some h)
  rw [Token.spellNumber, hparts, NumberParts.map_text _ (by decide) (by decide)] at hspelled
  rw [← hspelled, String.toList_ofList]

/-- Whether a scan takes a number as one token: it starts with a digit, or it starts with the point of a
locale in which that is no operator, and has no sign. -/
def KeepsWhole (locale : Locale) (text : String) : Prop :=
  text.toList.head? = some locale.decimalSeparator →
    locale = .enUS ∧ '+' ∉ text.toList ∧ '-' ∉ text.toList

instance : Decidable (locale.KeepsWhole text) := inferInstanceAs (Decidable (_ → _))

theorem head_of_fraction {parts : NumberParts} {separator : Char} {tail : List Char}
    (hwhole : parts.whole = []) (hfraction : parts.fraction ≠ none) :
    (parts.mantissa separator ++ tail).head? = some separator := by
  obtain ⟨digits, hdigits⟩ := Option.ne_none_iff_exists'.1 hfraction
  rw [NumberParts.mantissa, hwhole, hdigits]
  rfl

/-- Digits behind a point are read as a name, with an exponent mark among them or without. -/
theorem absorbs_point {parts : NumberParts} {tail unread : List Char} (hwhole : parts.whole = [])
    (hfraction : parts.fraction ≠ none) (htail : ∀ c ∈ tail, c.isDigit ∨ c = 'E' ∨ c = 'e') :
    absorbs .enUS [] .ordinary (parts.mantissa '.' ++ tail) unread = some .ordinary := by
  refine absorbs_plain (fun _ c hc => ?_) fun c hc => ?_
  · rw [head_of_fraction hwhole hfraction] at hc
    cases hc
    decide
  · have hcase : c.isDigit ∨ c ∈ ['.', 'E', 'e'] := by
      rcases List.mem_append.1 hc with hc | hc
      · exact (NumberParts.mem_mantissa hc).imp_right fun h : c = '.' => by simp [h]
      · exact (htail c hc).imp_right fun h => by rcases h with rfl | rfl <;> decide
    have hplain : ∀ d ∈ ['.', 'E', 'e'], endsWord d = false ∧ d ≠ '\'' ∧ d ≠ '[' := by
      simp [endsWord]
    exact hcase.elim (fun hdigit => plain_of_name (.inr (.inl hdigit))) (hplain c)

theorem word_of_readNumber? (h : locale.readNumber? text = some value) (hkeeps : locale.KeepsWhole text) :
    Word locale text := by
  obtain ⟨parts, hparts, hne⟩ := parts_of_readNumber? h
  by_cases hwhole : parts.whole = []
  · have hhead : text.toList.head? = some locale.decimalSeparator := by
      rw [hparts]
      exact head_of_fraction hwhole (hne hwhole)
    obtain ⟨rfl, hsign⟩ := hkeeps hhead
    rw [hparts] at hsign
    refine ⟨?_, .ordinary, ?_, .inl rfl⟩
    · rintro rfl
      cases hhead
    · rw [hparts]
      refine absorbs_point hwhole (hne hwhole) fun c hc => ?_
      refine (NumberParts.mem_scaled hc).imp_right fun hmark => ?_
      simp only [List.mem_cons, List.not_mem_nil, or_false] at hmark
      rcases hmark with rfl | rfl | rfl | rfl
      · exact .inl rfl
      · exact .inr rfl
      · exact absurd (List.mem_append_right _ hc) hsign.1
      · exact absurd (List.mem_append_right _ hc) hsign.2
  · have hword : Word locale (String.ofList (parts.text locale.decimalSeparator)) :=
      NumberParts.word hwhole
    rwa [← hparts, String.ofList_toList] at hword

end Locale

namespace Formula

/-! ## Numbers that a scan takes apart -/

/-- The first token of a formula is the first one that is passed. -/
theorem head_of_passes {part rest : List Char} {symbol : String} {kind : Token.Kind}
    {subkind : Token.Subkind} (htext : text.toList = part ++ rest)
    (h : Passes locale (.initial 1) part rest fun tokens => ∃ start stop,
      tokens = [⟨symbol, kind, subkind, start, stop⟩]) (hkind : kind ≠ .whitespace)
    (hkept : ∀ start stop, (Token.resolveOne locale none ⟨symbol, kind, subkind, start, stop⟩).kind ≠ .noop) :
    ∃ start stop more, tokens locale ("=" ++ text) =
      Token.resolveOne locale none ⟨symbol, kind, subkind, start, stop⟩ :: more := by
  obtain ⟨s, _, hthrough, hbeyond, start, stop, rfl⟩ := h
  have hgrows : [⟨symbol, kind, subkind, start, stop⟩] <+: (through locale rest s).tokens.toList := by
    have hgrows : s.tokens.toList <+: (through locale rest s).tokens.toList :=
      grows_through (.inl hbeyond.idle.1)
    rwa [hbeyond.tokens] at hgrows
  obtain ⟨more, hmore⟩ := hgrows
  rw [tokens, ofFormula_equals, htext, hthrough, ← hmore]
  exact ⟨start, stop, Token.normalize_cons hkind (hkept start stop)⟩

/-- A comma that starts a formula is the union operator, also where it is the decimal separator. -/
theorem head_of_separator (h : text.toList.head? = some ',') :
    ∃ start stop more, tokens .deDE ("=" ++ text) = ⟨",", .infixOp, .union, start, stop⟩ :: more := by
  obtain ⟨rest, htext⟩ := List.head?_eq_some_iff.1 h
  have hpasses : Passes .deDE (.initial 1) [','] rest fun tokens => ∃ start stop,
      tokens = [⟨",", .infixOp, .union, start, stop⟩] :=
    passes_union ⟨rfl, rfl⟩ fun hcomma => by cases hcomma
  exact head_of_passes htext hpasses (by decide) fun _ _ => by simp [Token.resolveOne]

/-- Behind a point without digits in front of it, a sign is an operator and ends the operand. -/
theorem head_of_signed {parts : NumberParts} {exponent : Exponent} {sign : Char}
    (hparts : text.toList = parts.text '.') (hwhole : parts.whole = []) (hfraction : parts.fraction ≠ none)
    (hexponent : parts.exponent = some exponent) (hsign : exponent.sign = [sign])
    (hcloses : closesWord sign) : ∃ (word : String) (start stop : Nat) (more : List Token),
      word.toList.length < text.toList.length ∧ tokens .enUS ("=" ++ text) =
        Token.resolveOperand .enUS ⟨word, .operand, .unspecified, start, stop⟩ :: more := by
  have htext : text.toList =
      (String.ofList (parts.mantissa '.' ++ [exponent.mark])).toList ++ sign :: exponent.digits.chars := by
    rw [hparts, NumberParts.text, hexponent, scaled, Option.elim_some, hsign, String.toList_ofList]
    simp
  generalize hword : String.ofList (parts.mantissa '.' ++ [exponent.mark]) = word at htext
  have habsorbs : absorbs .enUS [] .ordinary word.toList [] = some .ordinary := by
    rw [← hword, String.toList_ofList]
    refine Locale.absorbs_point hwhole hfraction fun c hc => .inr ?_
    rw [List.mem_singleton.1 hc]
    exact exponent.isMark
  have hne : word ≠ "" := by
    rintro rfl
    simp at hword
  have hpasses : Passes .enUS (.initial 1) word.toList (sign :: exponent.digits.chars) fun tokens =>
      ∃ start stop, tokens = [⟨word, .operand, .unspecified, start, stop⟩] :=
    passes_word ⟨rfl, rfl⟩ ⟨hne, .ordinary, habsorbs, .inl rfl⟩
      (closes_of_ordinary habsorbs fun c hc => by cases hc; exact hcloses)
  obtain ⟨start, stop, more, htokens⟩ := head_of_passes htext hpasses (by decide) fun start stop => by
    rw [Token.resolveOne_word]
    simp [Token.kind_resolveOperand]
  rw [Token.resolveOne_word] at htokens
  exact ⟨word, start, stop, more, by simp [htext], htokens⟩

/-! ## Where scanning and reading agree -/

/-- The first token of a number that a scan takes apart is no number with its canonical text. -/
theorem takes_apart (h : locale.readNumber? text = some value) (hkeeps : ¬ locale.KeepsWhole text)
    (start stop : Nat) :
    tokens locale ("=" ++ text) ≠ [⟨locale.canonical text, .operand, .number, start, stop⟩] := by
  intro hsingle
  unfold Locale.KeepsWhole at hkeeps
  rw [Classical.not_imp] at hkeeps
  obtain ⟨hhead, hnot⟩ := hkeeps
  cases locale with
  | deDE =>
    obtain ⟨_, _, _, htokens⟩ := head_of_separator hhead
    rw [hsingle] at htokens
    have hkind : Token.Kind.operand = .infixOp := congrArg Token.kind (List.cons.inj htokens).1
    cases hkind
  | enUS =>
    obtain ⟨parts, hparts, hne⟩ := Locale.parts_of_readNumber? h
    have hwhole : parts.whole = [] := by
      by_contra hwhole
      obtain ⟨c, tail, hcons⟩ := List.exists_cons_of_ne_nil hwhole
      rw [hparts, NumberParts.text, NumberParts.mantissa, hcons] at hhead
      exact absurd (parts.isDigit_whole '.' (by simp [hcons, show c = '.' from Option.some.inj hhead]))
        (by decide)
    have hsigned : '+' ∈ text.toList ∨ '-' ∈ text.toList := by
      by_contra hunsigned
      exact hnot ⟨rfl, not_or.1 hunsigned⟩
    rw [hparts] at hsigned
    obtain ⟨exponent, sign, hexponent, hsign, hcloses⟩ := NumberParts.sign_of_mem (by decide) hsigned
    obtain ⟨word, start', stop', more, hlength, htokens⟩ :=
      head_of_signed hparts hwhole (hne hwhole) hexponent hsign hcloses
    rw [hsingle] at htokens
    -- The operand is shorter than the text, and its canonical spelling is not.
    have hresolved := (List.cons.inj htokens).1
    unfold Token.resolveOperand at hresolved
    split at hresolved
    · have hvalue := congrArg (fun token => token.value.toList.length) hresolved
      simp only [Locale.canonical, String.toList_ofList, List.length_map] at hvalue
      omega
    · have hsubkind := congrArg Token.subkind hresolved
      split at hsubkind <;> cases hsubkind

/-- A number that a scan does not take apart is the only token of its formula, in its canonical
spelling, and it is the number that is read, whatever the limits are. -/
theorem number_of_keepsWhole (h : locale.readNumber? text = some value) (hkeeps : locale.KeepsWhole text) :
    tokens locale ("=" ++ text) =
        [⟨locale.canonical text, .operand, .number, 1, 1 + text.utf8ByteSize⟩] ∧
      ∀ limits strict, parse ⟨locale, limits, strict⟩ ("=" ++ text) = .ok (.number value) := by
  have hword := Locale.word_of_readNumber? h hkeeps
  have hresolved : ∀ start stop, Token.resolveOperand locale
      ⟨text, .operand, .unspecified, start, stop⟩ =
        ⟨locale.canonical text, .operand, .number, start, stop⟩ := fun start stop => by
    rw [Token.resolveOperand, if_pos (Option.isSome_of_eq_some h)]
  refine ⟨(tokens_word hword).trans (by rw [hresolved]), fun limits strict => ?_⟩
  rw [parse_word hword, hresolved, Parser.parse_number _ _ _ (Locale.canonical_of_readNumber? h).1]
  rfl

theorem number_of_keepsWhole_quarter :
    Locale.deDE.readNumber? "2,5E-1" = some (.finite false ⟨1021 * twoTo 52, by decide⟩) ∧
      Locale.deDE.KeepsWhole "2,5E-1" ∧
      tokens .deDE "=2,5E-1" = [⟨"2.5E-1", .operand, .number, 1, 7⟩] ∧
      parse ⟨.deDE, .standard, true⟩ "=2,5E-1" =
        .ok (.number (.finite false ⟨1021 * twoTo 52, by decide⟩)) := by
  have hread : Locale.deDE.readNumber? "2,5E-1" =
      some (.finite false ⟨1021 * twoTo 52, by decide⟩) := by decide +kernel
  have hkeeps : Locale.deDE.KeepsWhole "2,5E-1" := by decide
  have htoken : (⟨Locale.deDE.canonical "2,5E-1", .operand, .number, 1, 1 + "2,5E-1".utf8ByteSize⟩ : Token) =
      ⟨"2.5E-1", .operand, .number, 1, 7⟩ := by decide +kernel
  have hnumber := number_of_keepsWhole hread hkeeps
  rw [htoken] at hnumber
  exact ⟨hread, hkeeps, hnumber.1, hnumber.2 _ _⟩

/-- Both kinds of numbers that a scan takes apart. -/
theorem number_taken_apart :
    (Locale.deDE.readNumber? ",25").isSome ∧
      tokens .deDE "=,25" = [⟨",", .infixOp, .union, 1, 2⟩, ⟨"25", .operand, .number, 2, 4⟩] ∧
    (Locale.enUS.readNumber? ".25E+3").isSome ∧
      tokens .enUS "=.25E+3" = [⟨".25E", .operand, .range, 1, 5⟩, ⟨"+", .infixOp, .math, 5, 6⟩,
        ⟨"3", .operand, .number, 6, 7⟩] := by
  have hcomma : Scan.ofFormula .deDE "=,25" =
      ⟨#[⟨",", .infixOp, .union, 1, 2⟩, ⟨"25", .operand, .unspecified, 2, 4⟩], [], 4, "", 2, .ordinary,
        none⟩ := by cbv
  have hsigned : Scan.ofFormula .enUS "=.25E+3" =
      ⟨#[⟨".25E", .operand, .unspecified, 1, 5⟩, ⟨"+", .infixOp, .unspecified, 5, 6⟩,
        ⟨"3", .operand, .unspecified, 6, 7⟩], [], 7, "", 6, .ordinary, none⟩ := by cbv
  refine ⟨by decide +kernel, ?_, by decide +kernel, ?_⟩
  · rw [tokens, hcomma]
    decide +kernel
  · rw [tokens, hsigned]
    decide +kernel

end Formula

end

end SheetFormula
