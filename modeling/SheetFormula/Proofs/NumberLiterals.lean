import Mathlib.Algebra.Order.Field.Power
import SheetFormula.Proofs.Nearest
import SheetFormula.Proofs.Numerals

/-!
# The value of a number literal

What a number literal of the grammar stands for, by exact arithmetic and one rounding.

1. `NumberLiteral.read?` reads a text by cutting it at its marks: at the exponent mark, and what stands
   in front of that at the point.
2. `NumberLiteral.hundredthOf` is the product with the number nearest to one hundredth.
3. The numbers of expressions are read and scaled like this: `NumberLiteral.read?_eq` and
   `NumberLiteral.percent_eq`.
-/

namespace SheetFormula

open Number

namespace Number

/-- The number with this sign nearest to a magnitude. -/
def Binary64.rounded (negative : Bool) (x : ℚ) : Binary64 :=
  if h : nearest x < overflowCode then .finite negative ⟨nearest x, h⟩ else .infinity negative

namespace Decimal

/-- The number that a decimal stands for. -/
def value (d : Decimal) : ℚ := d.coefficient * 10 ^ d.exponent

theorem rounded_eq_nearest (d : Decimal) : d.rounded = nearest d.value := by
  have hunit := unitsPerOne_pos.ne'
  have hpower : ∀ n, (tenTo n : ℚ) = 10 ^ n := fun n => Nat.cast_pow 10 n
  rw [Decimal.rounded, nearestCode_eq_nearest (tenTo_pos _), Nat.cast_mul, Nat.cast_mul, hpower, hpower,
    div_right_comm, mul_div_cancel_right₀ _ hunit, value]
  obtain ⟨n, h | h⟩ := d.exponent.eq_nat_or_neg <;> rw [h]
  · rw [Int.toNat_natCast, Int.toNat_neg_natCast, pow_zero, div_one, zpow_natCast]
  · rw [Int.toNat_neg_natCast, neg_neg, Int.toNat_natCast, pow_zero, mul_one, zpow_neg, zpow_natCast,
      div_eq_mul_inv]

/-- A decimal with so large an exponent is too large for a finite number. -/
theorem overflowCode_le_rounded {d : Decimal} (hpos : d.coefficient ≠ 0) (h : 310 ≤ d.exponent) :
    overflowCode ≤ d.rounded := by
  have hunits : units overflowCode ≤ tenTo 310 * unitsPerOne := by decide +kernel
  have hpower : ∀ n : Nat, (tenTo n : ℚ) = 10 ^ (n : ℤ) := fun n =>
    (Nat.cast_pow 10 n).trans (zpow_natCast _ _).symm
  have hcoefficient : (1 : ℚ) ≤ d.coefficient := Nat.one_le_cast.2 (Nat.pos_of_ne_zero hpos)
  rw [rounded_eq_nearest]
  refine le_nearest ?_
  calc magnitude overflowCode ≤ tenTo 310 := by
        rw [magnitude_eq, div_le_iff₀ unitsPerOne_pos, ← Nat.cast_mul]
        exact Nat.cast_le.2 hunits
    _ = 10 ^ ((310 : Nat) : ℤ) := hpower 310
    _ ≤ 10 ^ d.exponent := zpow_le_zpow_right₀ (by norm_num) (by omega)
    _ ≤ d.value := le_mul_of_one_le_left (by positivity) hcoefficient

theorem toBinary64_eq (negative : Bool) (d : Decimal) :
    d.toBinary64 negative = .rounded negative d.value := by
  have hlarge : ∀ {code other}, overflowCode ≤ code → overflowCode ≤ other →
      Binary64.ofCode negative code = Binary64.ofCode negative other := by
    intro code other hcode hother
    rw [Binary64.ofCode, Binary64.ofCode, dif_neg (Nat.not_lt.2 hcode), dif_neg (Nat.not_lt.2 hother)]
  show Binary64.ofCode negative d.nearestCode = Binary64.ofCode negative (nearest d.value)
  rw [← rounded_eq_nearest, nearestCode]
  split_ifs with hzero hhigh hlow
  · rw [rounded_zero hzero]
  · exact hlarge (Nat.le_refl _) (overflowCode_le_rounded hzero hhigh)
  · rw [rounded_eq_zero hlow]
  · rfl

end Decimal

/-- The number nearest to one hundredth. -/
theorem nearest_hundredth : nearest (1 / 100) = 0x3F847AE147AE147B := by
  have hone : (1 / 100 : ℚ) = unitsPerOne / (100 : Nat) / unitsPerOne := by
    have := unitsPerOne_pos.ne'
    field_simp
    norm_num
  rw [hone, ← nearestCode_eq_nearest (by decide)]
  decide +kernel

end Number

namespace NumberLiteral

/-! ## The value -/

/-- One hundredth of a number: the product with the number nearest to one hundredth, rounded. -/
def hundredthOf : Binary64 → Binary64
  | .finite negative code =>
    .rounded negative (magnitude code * magnitude (nearest (1 / 100)))
  | special => special

/-- Cuts a text at its first mark. Without a mark there is no second part. -/
def cut (isMark : Char → Bool) (text : List Char) : List Char × Option (List Char) :=
  (text.takeWhile (!isMark ·), (text.dropWhile (!isMark ·)).tail?)

/-- The value of one digit or more. -/
def whole? (text : List Char) : Option Nat :=
  if text ≠ [] ∧ text.all Char.isDigit then some (Nat.ofDigitChars 10 text 0) else none

/-- Takes the sign off a text; whether it is a minus sign. -/
def signed : List Char → Bool × List Char
  | '-' :: rest => (true, rest)
  | '+' :: rest => (false, rest)
  | rest => (false, rest)

/-- The value of digits that may have a sign. -/
def integer? (text : List Char) : Option Int :=
  let (negative, digits) := signed text
  (whole? digits).map fun n => if negative then -n else n

/-- The value of digits, of which some may stand behind a point. -/
def mantissa? (text : List Char) : Option ℚ :=
  let (whole, fraction) := cut (· == '.') text
  (whole? (whole ++ fraction.getD [])).map fun digits =>
    (digits : ℚ) / 10 ^ (fraction.getD []).length

/-- Whether the power of ten stands behind a character. -/
def marksPower (c : Char) : Bool := c == 'e' || c == 'E'

/-- The value of a mantissa, which a power of ten may follow. -/
def decimal? (text : List Char) : Option ℚ := do
  let (mantissa, power) := cut marksPower text
  return (← mantissa? mantissa) * 10 ^ (← power.elim (some 0) integer?)

/-- The number that a text stands for. -/
def read? (text : String) : Option Binary64 :=
  let (negative, unsigned) := signed text.toList
  let word := unsigned.map Char.toLower
  if word = "inf".toList ∨ word = "infinity".toList then some (.infinity negative)
  else if word = "nan".toList then some .nan
  else (decimal? unsigned).map (.rounded negative)

/-! ## Agreement -/

theorem percent_eq (value : Binary64) : value.percent = hundredthOf value := by
  cases value with
  | finite negative code =>
    have hproduct : ((units code * units 0x3F847AE147AE147B : Nat) : ℚ) / unitsPerOne / unitsPerOne =
        magnitude code * magnitude (nearest (1 / 100)) := by
      rw [nearest_hundredth, magnitude_eq, magnitude_eq, Nat.cast_mul, div_mul_div_comm, div_div]
    have hsign : (negative != false) = negative := by cases negative <;> rfl
    have hunit : 0 < unitsPerOne := twoTo_pos 1074
    rw [Binary64.percent, Binary64.hundredth_eq, Binary64.mul, nearestCode_eq_nearest hunit, hproduct,
      hsign]
    rfl
  | infinity negative => cases negative <;> rfl
  | nan => rfl

section

variable {isMark : Char → Bool} {c : Char} {front rest : List Char}

theorem cut_append (h : ∀ c ∈ front, isMark c = false) :
    cut isMark (front ++ rest) = (front ++ (cut isMark rest).1, (cut isMark rest).2) := by
  have hnot : ∀ c ∈ front, !isMark c := by simpa using h
  rw [cut, List.takeWhile_append_of_pos hnot, List.dropWhile_append_of_pos hnot]
  rfl

theorem cut_cons (h : isMark c) : cut isMark (c :: rest) = ([], some rest) := by
  simp [cut, h]

end

theorem whole?_of_digits {digits : List Char} (hne : digits ≠ []) (h : ∀ c ∈ digits, c.isDigit) :
    whole? digits = some (Nat.ofDigitChars 10 digits 0) := if_pos ⟨hne, List.all_eq_true.2 h⟩

theorem whole?_of_mem {text : List Char} {c : Char} (hc : c ∈ text) (h : c.isDigit = false) :
    whole? text = none := by
  refine if_neg fun hdigits => ?_
  have := List.all_eq_true.1 hdigits.2 c hc
  rw [h] at this
  cases this

theorem marksPower_iff {c : Char} : marksPower c ↔ c = 'e' ∨ c = 'E' := by
  simp [marksPower]

theorem not_marksPower {c : Char} (h : c.isDigit ∨ c = '.') : marksPower c = false := by
  rw [← Bool.not_eq_true, marksPower_iff]
  rintro (rfl | rfl) <;> exact absurd h (by decide)

theorem unsigned_eq (text : List Char) :
    Decimal.readExponent.unsigned text = (whole? text).map fun n => (n : Int) := by
  have hiff : (text.isEmpty || !text.all Char.isDigit) = false ↔
      text ≠ [] ∧ text.all Char.isDigit := by simp
  unfold Decimal.readExponent.unsigned whole?
  by_cases hdigits : text ≠ [] ∧ text.all Char.isDigit
  · rw [if_pos hdigits, hiff.2 hdigits, if_neg Bool.false_ne_true]
    rfl
  · rw [if_neg hdigits, if_pos (Bool.not_eq_false _ ▸ mt hiff.1 hdigits)]
    rfl

theorem signed_self {text : List Char} (hplus : ∀ rest, text ≠ '+' :: rest)
    (hminus : ∀ rest, text ≠ '-' :: rest) : signed text = (false, text) := by
  unfold signed
  split
  · exact absurd rfl (hminus _)
  · exact absurd rfl (hplus _)
  · rfl

theorem integer?_eq (text : List Char) : integer? text = Decimal.readExponent text := by
  unfold Decimal.readExponent
  split
  · exact (unsigned_eq _).symm
  · rw [unsigned_eq, Option.map_map]
    rfl
  · rename_i hplus hminus
    rw [integer?, signed_self hplus hminus, unsigned_eq]
    rfl

section

variable {whole rest : List Char} {fraction : Option (List Char)}

/-- A text is digits, and a point with digits, in front of what is neither. -/
theorem exists_mantissa (text : List Char) : ∃ whole fraction rest,
    text = whole ++ (fraction.elim [] ('.' :: ·) ++ rest) ∧ (∀ c ∈ whole, c.isDigit) ∧
      (∀ digits ∈ fraction, ∀ c ∈ digits, c.isDigit) ∧
      (∀ c ∈ rest.head?, c.isDigit = false ∧ (fraction = none → c ≠ '.')) := by
  have hspan : ∀ text : List Char, ∃ digits rest, text = digits ++ rest ∧ (∀ c ∈ digits, c.isDigit) ∧
      ∀ c ∈ rest.head?, c.isDigit = false := by
    intro text
    refine ⟨text.takeWhile Char.isDigit, text.dropWhile Char.isDigit,
      List.takeWhile_append_dropWhile.symm, List.all_eq_true.1 List.all_takeWhile, fun c hc => ?_⟩
    have hstop := List.head?_dropWhile_not Char.isDigit text
    rw [hc] at hstop
    exact hstop
  obtain ⟨whole, rest, rfl, hwhole, hrest⟩ := hspan text
  by_cases hpoint : rest.head? = some '.'
  · obtain ⟨tail, rfl⟩ := List.head?_eq_some_iff.1 hpoint
    obtain ⟨digits, rest, rfl, hdigits, hrest⟩ := hspan tail
    exact ⟨whole, some digits, rest, rfl, hwhole, by simpa using hdigits, by simpa using hrest⟩
  · refine ⟨whole, none, rest, rfl, hwhole, by simp, fun c hc => ⟨hrest c hc, fun _ => ?_⟩⟩
    rintro rfl
    exact hpoint hc

variable (hwhole : ∀ c ∈ whole, c.isDigit)

include hwhole

/-- A mantissa is cut at its point. -/
theorem cut_mantissa : cut (· == '.') (whole ++ (fraction.elim [] ('.' :: ·) ++ rest)) =
    fraction.elim (whole ++ (cut (· == '.') rest).1, (cut (· == '.') rest).2)
      fun digits => (whole, some (digits ++ rest)) := by
  have hplain : ∀ c ∈ whole, (c == '.') = false := by
    intro c hc
    rw [beq_eq_false_iff_ne]
    rintro rfl
    exact absurd (hwhole _ hc) (by decide)
  rw [cut_append hplain]
  cases fraction with
  | none => rfl
  | some digits => simp [cut_cons]

/-- A mantissa in front of something else is none. -/
theorem mantissa?_other {c : Char} (hc : c.isDigit = false) (hpoint : fraction = none → c ≠ '.') :
    mantissa? (whole ++ (fraction.elim [] ('.' :: ·) ++ c :: rest)) = none := by
  have hmem : c ∈ (cut (· == '.') (whole ++ (fraction.elim [] ('.' :: ·) ++ c :: rest))).1 ++
      (cut (· == '.') (whole ++ (fraction.elim [] ('.' :: ·) ++ c :: rest))).2.getD [] := by
    rw [cut_mantissa hwhole]
    cases fraction with
    | none => simp [cut, hpoint rfl]
    | some digits => simp
  rw [mantissa?]
  dsimp only
  rw [whole?_of_mem hmem hc]
  rfl

variable (hfraction : ∀ digits ∈ fraction, ∀ c ∈ digits, c.isDigit)

include hfraction

theorem mantissa?_digits : mantissa? (whole ++ fraction.elim [] ('.' :: ·)) =
    if whole ++ fraction.getD [] = [] then none
    else some ((Nat.ofDigitChars 10 (whole ++ fraction.getD []) 0 : ℚ) /
      10 ^ (fraction.getD []).length) := by
  have hdigits : ∀ c ∈ whole ++ fraction.getD [], c.isDigit := by
    intro c hc
    rcases List.mem_append.1 hc with hc | hc
    · exact hwhole c hc
    · cases fraction with
      | none => cases hc
      | some digits => exact hfraction digits rfl c hc
  have hcut : cut (· == '.') (whole ++ fraction.elim [] ('.' :: ·)) = (whole, fraction) := by
    rw [← List.append_nil (fraction.elim _ _), cut_mantissa hwhole]
    cases fraction <;> simp [cut]
  rw [mantissa?, hcut]
  dsimp only
  split
  · rename_i hempty
    rw [hempty]
    rfl
  · rename_i hne
    rw [whole?_of_digits hne hdigits]
    rfl

variable (hrest : ∀ c ∈ rest.head?, c.isDigit = false ∧ (fraction = none → c ≠ '.'))

include hrest

theorem read?_mantissa :
    Decimal.read? (whole ++ (fraction.elim [] ('.' :: ·) ++ rest)) =
      if whole ++ fraction.getD [] = [] then none
      else (Decimal.readScale rest).map fun scale =>
        ⟨Nat.ofDigitChars 10 (whole ++ fraction.getD []) 0, scale - (fraction.getD []).length⟩ := by
  have hsplit : Decimal.spanDigits (whole ++ (fraction.elim [] ('.' :: ·) ++ rest)) =
      (whole, fraction.elim [] ('.' :: ·) ++ rest) := by
    refine Decimal.spanDigits_append hwhole fun c hc => ?_
    cases fraction with
    | none => exact (hrest c hc).1
    | some digits =>
      cases hc
      decide
  have hpoint : Decimal.readFraction (fraction.elim [] ('.' :: ·) ++ rest) =
      (fraction.getD [], rest) := by
    cases fraction with
    | none =>
      show Decimal.readFraction rest = ([], rest)
      unfold Decimal.readFraction
      split
      · exact absurd rfl ((hrest '.' rfl).2 rfl)
      · rfl
    | some digits =>
      exact Decimal.spanDigits_append (hfraction digits rfl) fun c hc => (hrest c hc).1
  have hempty : (whole.isEmpty && (fraction.getD []).isEmpty) = true ↔
      whole ++ fraction.getD [] = [] := by simp
  rw [Decimal.read?, hsplit]
  simp only [hpoint, hempty]

/-- What follows a mantissa is its power of ten. -/
theorem decimal?_mantissa :
    decimal? (whole ++ (fraction.elim [] ('.' :: ·) ++ rest)) =
      if whole ++ fraction.getD [] = [] then none
      else (Decimal.readScale rest).map fun scale : Int =>
        (Nat.ofDigitChars 10 (whole ++ fraction.getD []) 0 : ℚ) / 10 ^ (fraction.getD []).length *
          10 ^ scale := by
  have hplain : ∀ c ∈ whole ++ fraction.elim [] ('.' :: ·), marksPower c = false := by
    intro c hc
    have hmantissa : c.isDigit ∨ c = '.' := by
      rcases List.mem_append.1 hc with hc | hc
      · exact .inl (hwhole c hc)
      · cases fraction with
        | none => cases hc
        | some digits => exact (List.mem_cons.1 hc).symm.imp_left (hfraction digits rfl c)
    exact not_marksPower hmantissa
  have hmantissa := mantissa?_digits hwhole hfraction
  rw [← List.append_assoc, decimal?, cut_append hplain]
  cases rest with
  | nil =>
    have hend : cut marksPower [] = ([], none) := rfl
    simp only [hend, List.append_nil, hmantissa, Decimal.readScale]
    split <;> rfl
  | cons c rest =>
    by_cases hmark : marksPower c
    · have hscale : Decimal.readScale (c :: rest) = integer? rest := by
        rw [Decimal.readScale, if_pos (marksPower_iff.1 hmark), integer?_eq]
      simp only [cut_cons hmark, List.append_nil, hmantissa, hscale, Option.elim_some]
      split
      · rfl
      · cases integer? rest <;> rfl
    · obtain ⟨hc, hpoint⟩ := hrest c rfl
      have hscale : Decimal.readScale (c :: rest) = none :=
        if_neg (mt marksPower_iff.2 hmark)
      have hfront : (cut marksPower (c :: rest)).1 = c :: (cut marksPower rest).1 := by
        simp [cut, hmark]
      have hnone : mantissa? (whole ++ (fraction.elim [] ('.' :: ·) ++
          c :: (cut marksPower rest).1)) = none := mantissa?_other hwhole hc hpoint
      rw [← List.append_assoc] at hnone
      simp only [hfront, hnone, hscale]
      split <;> rfl

end

theorem decimal?_eq (text : List Char) : decimal? text = (Decimal.read? text).map Decimal.value := by
  obtain ⟨whole, fraction, rest, rfl, hwhole, hfraction, hrest⟩ := exists_mantissa text
  rw [read?_mantissa hwhole hfraction hrest, decimal?_mantissa hwhole hfraction hrest]
  split
  · rfl
  · rw [Option.map_map]
    refine congrArg (Option.map · _) (funext fun scale => ?_)
    show _ = (_ : ℚ) * 10 ^ (scale - _ : ℤ)
    rw [zpow_sub₀ (by norm_num), zpow_natCast]
    ring

/-- The number that a literal stands for is the one that is read from it. -/
theorem read?_eq (text : String) : read? text = Binary64.ofText? text := by
  have hread : ∀ negative unsigned,
      (if unsigned.map Char.toLower = "inf".toList ∨ unsigned.map Char.toLower = "infinity".toList then
          some (Binary64.infinity negative)
        else if unsigned.map Char.toLower = "nan".toList then some .nan
        else (decimal? unsigned).map (.rounded negative)) = Binary64.readUnsigned? negative unsigned := by
    intro negative unsigned
    have hvalue : Decimal.toBinary64 negative = .rounded negative ∘ Decimal.value :=
      funext (Decimal.toBinary64_eq negative)
    rw [Binary64.readUnsigned?, decimal?_eq, Option.map_map, hvalue]
    rfl
  unfold Binary64.ofText?
  split
  · rename_i rest heq
    rw [read?, heq]
    exact hread false rest
  · rename_i rest heq
    rw [read?, heq]
    exact hread true rest
  · rename_i hplus hminus
    rw [read?, signed_self hplus hminus]
    exact hread false text.toList

end NumberLiteral

end SheetFormula
