import SheetFormula.Proofs.Numerals
import SheetFormula.Proofs.TokenShapes

/-!
# The parts of a number

A number as a locale may write it: digits, a separator with more digits, and a power of ten.

1. `NumberParts.text` is the text that the parts of a number make with a separator. Nothing but the
   separator depends on the locale: `NumberParts.map_text`.
2. Behind a digit a scan takes the rest of a number in the number mode, a sign directly behind the
   exponent mark included: `NumberParts.absorbs_text`. So a number with a whole part is one word.
-/

namespace SheetFormula

open Scan Number

/-- One or more digits. -/
structure Digits where
  chars : List Char
  ne_nil : chars ≠ []
  isDigit : ∀ c ∈ chars, c.isDigit

/-- The power of ten of a number: its mark, a sign or none, and digits. -/
structure Exponent where
  mark : Char
  sign : List Char
  digits : Digits
  isMark : mark = 'E' ∨ mark = 'e'
  isSign : sign = [] ∨ sign = ['+'] ∨ sign = ['-']

/-- What stands behind the whole part of a number, or behind its fraction. -/
def scaled (exponent : Option Exponent) : List Char :=
  exponent.elim [] fun exponent => exponent.mark :: (exponent.sign ++ exponent.digits.chars)

/-- The parts of a number. The digits in front of the separator may be missing, and those behind it. -/
structure NumberParts where
  whole : List Char
  fraction : Option (List Char)
  exponent : Option Exponent
  isDigit_whole : ∀ c ∈ whole, c.isDigit
  isDigit_fraction : ∀ digits ∈ fraction, ∀ c ∈ digits, c.isDigit

namespace NumberParts

/-- The digits with this separator in front of the fraction. -/
def mantissa (parts : NumberParts) (separator : Char) : List Char :=
  parts.whole ++ parts.fraction.elim [] (separator :: ·)

def text (parts : NumberParts) (separator : Char) : List Char :=
  parts.mantissa separator ++ scaled parts.exponent

section

variable {locale : Locale} {parts : NumberParts} {separator c : Char} {exponent : Option Exponent}

/-! ## Characters -/

theorem mem_scaled (hc : c ∈ scaled exponent) : c.isDigit ∨ c ∈ ['E', 'e', '+', '-'] := by
  cases exponent with
  | none => cases hc
  | some exponent =>
    rcases List.mem_cons.1 hc with rfl | hc
    · rcases exponent.isMark with h | h <;> simp [h]
    · rcases List.mem_append.1 hc with hc | hc
      · rcases exponent.isSign with h | h | h <;> rw [h] at hc <;> simp_all
      · exact .inl (exponent.digits.isDigit c hc)

theorem mem_mantissa (hc : c ∈ parts.mantissa separator) : c.isDigit ∨ c = separator := by
  rcases List.mem_append.1 hc with hc | hc
  · exact .inl (parts.isDigit_whole c hc)
  · cases hfraction : parts.fraction with
    | none =>
      rw [hfraction] at hc
      cases hc
    | some digits =>
      rw [hfraction] at hc
      rcases List.mem_cons.1 hc with rfl | hc
      · exact .inr rfl
      · exact .inl (parts.isDigit_fraction digits hfraction c hc)

theorem mem_text (hc : c ∈ parts.text separator) :
    c.isDigit ∨ c = separator ∨ c ∈ ['E', 'e', '+', '-'] := by
  rcases List.mem_append.1 hc with hc | hc
  · exact (mem_mantissa hc).imp_right .inl
  · exact (mem_scaled hc).imp_right .inr

/-- Another separator changes nothing else. -/
theorem map_text (parts : NumberParts) {separator other : Char} (hdigit : separator.isDigit = false)
    (hmark : separator ∉ ['E', 'e', '+', '-']) :
    (parts.text separator).map (fun c => if c = separator then other else c) = parts.text other := by
  have hkept : ∀ text : List Char, (∀ c ∈ text, c.isDigit ∨ c ∈ ['E', 'e', '+', '-']) →
      text.map (fun c => if c = separator then other else c) = text := by
    intro text htext
    refine (List.map_congr_left fun c hc => if_neg ?_).trans (List.map_id' _)
    rintro rfl
    rcases htext c hc with h | h
    · rw [hdigit] at h
      cases h
    · exact hmark h
  unfold text mantissa
  rw [List.map_append, List.map_append, hkept _ fun c hc => .inl (parts.isDigit_whole c hc),
    hkept _ fun c hc => mem_scaled hc]
  cases hfraction : parts.fraction with
  | none => rfl
  | some digits =>
    show parts.whole ++ (separator :: digits).map _ ++ _ = parts.whole ++ other :: digits ++ _
    rw [List.map_cons, if_pos rfl, hkept _ fun c hc => .inl (parts.isDigit_fraction digits hfraction c hc)]

/-! ## Numbers with a whole part -/

/-- Digits go on with a number. -/
theorem absorbs_digits {before digits unread : List Char} (h : ∀ c ∈ digits, c.isDigit) :
    absorbs locale before .number digits unread = some .number := by
  induction digits generalizing before with
  | nil => rfl
  | cons c digits ih =>
    have hc : absorb locale .number (String.ofList before) c (digits ++ unread) = some .number := by
      simp [absorb, continuesNumber, h c List.mem_cons_self]
    rw [absorbs, hc, Option.bind_some]
    exact ih fun d hd => h d (List.mem_cons_of_mem _ hd)

theorem hasExponentMark_of_digits {text : List Char}
    (h : ∀ c ∈ text, c.isDigit ∨ c = locale.decimalSeparator) :
    hasExponentMark (String.ofList text) = false := by
  rw [hasExponentMark, String.toList_ofList, List.any_eq_false]
  intro c hc hmark
  simp only [Bool.or_eq_true, beq_iff_eq] at hmark
  rcases h c hc with h | h <;> rcases hmark with rfl | rfl
  · exact absurd h (by decide)
  · exact absurd h (by decide)
  · cases locale <;> exact absurd h (by decide)
  · cases locale <;> exact absurd h (by decide)

/-- The first separator goes on with the digits of a number. -/
theorem absorbs_fraction {before digits unread : List Char} (h : ∀ c ∈ before, c.isDigit)
    (hdigits : ∀ c ∈ digits, c.isDigit) :
    absorbs locale before .number (locale.decimalSeparator :: digits) unread = some .number := by
  have hmark : hasExponentMark (String.ofList before) = false :=
    hasExponentMark_of_digits fun c hc =>
      (.inl (h c hc) : c.isDigit ∨ c = locale.decimalSeparator)
  have hseparator : locale.decimalSeparator ∉ before := fun hmem => by
    have hdigit := h _ hmem
    cases locale <;> exact absurd hdigit (by decide)
  have hcontinues : continuesNumber locale locale.decimalSeparator (String.ofList before) := by
    unfold continuesNumber
    split
    · rfl
    · rw [if_pos rfl, hmark, String.toList_ofList]
      simpa using hseparator
  have hnext : absorb locale .number (String.ofList before) locale.decimalSeparator
      (digits ++ unread) = some .number := if_pos hcontinues
  rw [absorbs, hnext, Option.bind_some]
  exact absorbs_digits hdigits

/-- A number goes on with its power of ten. -/
theorem absorbs_exponent {before unread : List Char} {exponent : Exponent}
    (h : ∀ c ∈ before, c.isDigit ∨ c = locale.decimalSeparator)
    (hawaits : locale.awaitsExponent (String.ofList (before ++ [exponent.mark]))) :
    absorbs locale before .number (exponent.mark :: (exponent.sign ++ exponent.digits.chars))
      unread = some .number := by
  have hmark : continuesNumber locale exponent.mark (String.ofList before) := by
    have hnone := hasExponentMark_of_digits h
    unfold continuesNumber
    rcases exponent.isMark with h | h <;> rw [h] <;> cases locale <;> simp_all [Locale.decimalSeparator]
  have hsign : ∀ c, c = '+' ∨ c = '-' →
      continuesNumber locale c (String.ofList (before ++ [exponent.mark])) := by
    intro c hc
    generalize String.ofList (before ++ [exponent.mark]) = pending at hawaits ⊢
    unfold continuesNumber
    rcases hc with rfl | rfl <;> cases locale <;> simp [Locale.decimalSeparator, hawaits]
  have hnext : ∀ rest, absorb locale .number (String.ofList before) exponent.mark rest =
      some .number := fun rest => if_pos hmark
  have hsigned : ∀ c, c = '+' ∨ c = '-' → ∀ rest, absorb locale .number
      (String.ofList (before ++ [exponent.mark])) c rest = some .number :=
    fun c hc rest => if_pos (hsign c hc)
  rw [absorbs, hnext, Option.bind_some]
  rcases exponent.isSign with hnone | hplus | hminus
  · rw [hnone]
    exact absorbs_digits exponent.digits.isDigit
  · rw [hplus, List.singleton_append, absorbs, hsigned _ (.inl rfl), Option.bind_some]
    exact absorbs_digits exponent.digits.isDigit
  · rw [hminus, List.singleton_append, absorbs, hsigned _ (.inr rfl), Option.bind_some]
    exact absorbs_digits exponent.digits.isDigit

/-- A mantissa with a whole part and the exponent mark behind it awaits an exponent. -/
theorem awaitsExponent_mantissa {mark : Char} (hne : parts.whole ≠ []) (hmark : mark = 'E' ∨ mark = 'e') :
    locale.awaitsExponent (String.ofList (parts.mantissa locale.decimalSeparator ++ [mark])) := by
  have hempty : parts.whole.isEmpty = false := by simpa using hne
  have hmarked : Locale.isExponentMark [mark] := by rcases hmark with rfl | rfl <;> decide
  have hnot : ∀ c : Char, c = mark ∨ c = locale.decimalSeparator → Text.isDecimalDigit c = false := by
    rintro c (rfl | rfl)
    · rcases hmark with rfl | rfl <;> decide
    · cases locale <;> decide
  have hrun : ∀ digits rest : List Char, (∀ c ∈ digits, c.isDigit) →
      (∀ c ∈ rest.head?, c = mark ∨ c = locale.decimalSeparator) →
      (digits ++ rest).takeWhile Text.isDecimalDigit = digits ∧
        (digits ++ rest).dropWhile Text.isDecimalDigit = rest := fun _ _ hdigits hrest =>
    Decimal.takeWhile_append_stop (fun c hc => Text.isDecimalDigit_of_isDigit (hdigits c hc))
      fun c hc => hnot c (hrest c hc)
  unfold Locale.awaitsExponent mantissa
  rw [String.toList_ofList, List.append_assoc]
  cases hfraction : parts.fraction with
  | none =>
    obtain ⟨htake, hdrop⟩ := hrun parts.whole [mark] parts.isDigit_whole fun c hc => by
      cases hc
      exact .inl rfl
    simp only [Option.elim_none, List.nil_append, htake, hdrop, hempty, hmarked]
    rfl
  | some digits =>
    obtain ⟨htake, hdrop⟩ := hrun parts.whole (locale.decimalSeparator :: (digits ++ [mark]))
      parts.isDigit_whole fun c hc => by
        cases hc
        exact .inr rfl
    obtain ⟨-, hdigits⟩ := hrun digits [mark] (parts.isDigit_fraction digits hfraction) fun c hc => by
      cases hc
      exact .inl rfl
    simp only [Option.elim_some, List.cons_append, htake, hdrop, hdigits, hempty, hmarked]
    simp

/-- A number with a whole part is read to its end as a number. -/
theorem absorbs_text (hne : parts.whole ≠ []) :
    absorbs locale [] .ordinary (parts.text locale.decimalSeparator) [] = some .number := by
  have hcolon : startsRowReference (parts.text locale.decimalSeparator) = false := by
    rw [startsRowReference, beq_eq_false_iff_ne]
    intro heq
    have hmem : ':' ∈ parts.text locale.decimalSeparator :=
      (List.dropWhile_sublist Char.isDigit).subset (List.mem_of_mem_head? heq)
    rcases mem_text hmem with h | h | h
    · exact absurd h (by decide)
    · cases locale <;> exact absurd h (by decide)
    · exact absurd h (by decide)
  obtain ⟨c, tail, hwhole⟩ := List.exists_cons_of_ne_nil hne
  have hc : c.isDigit := parts.isDigit_whole c (by simp [hwhole])
  have hends : endsWord c = false := endsWord_of_isDigit hc
  have htail : ∀ d ∈ tail, d.isDigit := fun d hd => parts.isDigit_whole d (by simp [hwhole, hd])
  -- The number splits into its first digit, the rest of its mantissa and its power of ten.
  obtain ⟨mantissa, hmantissa, hread⟩ : ∃ mantissa,
      parts.mantissa locale.decimalSeparator = c :: mantissa ∧
        ∀ unread, absorbs locale [c] .number mantissa unread = some .number := by
    refine ⟨tail ++ parts.fraction.elim [] (locale.decimalSeparator :: ·), ?_, fun unread => ?_⟩
    · rw [NumberParts.mantissa, hwhole, List.cons_append]
    · rw [absorbs_append, absorbs_digits htail, Option.bind_some]
      cases hfraction : parts.fraction with
      | none => rfl
      | some digits =>
        refine absorbs_fraction (fun d hd => ?_) (parts.isDigit_fraction digits hfraction)
        exact (List.mem_cons.1 hd).elim (fun h => h ▸ hc) (htail d)
  have htext : parts.text locale.decimalSeparator = c :: (mantissa ++ scaled parts.exponent) := by
    rw [text, hmantissa, List.cons_append]
  rw [htext] at hcolon ⊢
  have hfirst : absorb locale .ordinary (String.ofList []) c (mantissa ++ scaled parts.exponent ++ []) =
      some .number := by
    rw [List.append_nil]
    simp [absorb, absorbOrdinary, hends, hc, hcolon]
  rw [absorbs, hfirst, Option.bind_some, List.nil_append, absorbs_append, hread, Option.bind_some,
    List.singleton_append, ← hmantissa]
  cases hexponent : parts.exponent with
  | none => rfl
  | some exponent =>
    exact absorbs_exponent (fun d hd => mem_mantissa hd) (awaitsExponent_mantissa hne exponent.isMark)

/-- A number with a whole part is one word. -/
theorem word (hne : parts.whole ≠ []) :
    Word locale (String.ofList (parts.text locale.decimalSeparator)) := by
  have hread : absorbs locale [] .ordinary (parts.text locale.decimalSeparator) [] = some .number :=
    absorbs_text hne
  refine ⟨fun hempty => ?_, .number, by rwa [String.toList_ofList], .inr rfl⟩
  rw [String.ofList_eq_empty_iff.1 hempty] at hread
  cases hread

end

end NumberParts

end SheetFormula
