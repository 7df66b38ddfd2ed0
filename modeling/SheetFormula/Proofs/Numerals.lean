import Mathlib.Algebra.Order.Ring.Int
import SheetFormula.Number.Layout
import SheetFormula.Number.Reader
import SheetFormula.Proofs.Rounding

/-!
# Numbers in formula text

Main statement: `ofText?_write`, a number that is written in formula text reads back as itself.

1. Two decimals of one value have the same nearest code, as long as their exponents are in range:
   `rounded_congr`, `nearestCode_of_rounded`.
2. The shortest decimal of a code reads back as the code, also where it is the exact one.
3. The text of a number is `Plain`: digits with at most one point between them.
-/

namespace SheetFormula.Number

open Nat (ofDigitChars toDigits)

theorem tenTo_pos (n : Nat) : 0 < tenTo n := Nat.pow_pos (by decide)

theorem tenTo_add (m n : Nat) : tenTo (m + n) = tenTo m * tenTo n := Nat.pow_add 10 m n

theorem twoTo_mul_five (n : Nat) : twoTo n * Nat.pow 5 n = tenTo n := (Nat.mul_pow 2 5 n).symm

/-- Seven factors ten are more than twenty-three factors two. -/
theorem twoTo_le_tenTo {m k : Nat} (h : 7 * m ≤ 23 * k) : twoTo m ≤ tenTo k := by
  refine (Nat.pow_le_pow_iff_left (show 7 ≠ 0 by decide)).1 ?_
  calc twoTo m ^ 7 = 2 ^ (m * 7) := (Nat.pow_mul 2 m 7).symm
    _ ≤ 2 ^ (23 * k) := Nat.pow_le_pow_right (by decide) (by omega)
    _ = (2 ^ 23) ^ k := Nat.pow_mul 2 23 k
    _ ≤ (10 ^ 7) ^ k := Nat.pow_le_pow_left (by decide) k
    _ = 10 ^ (7 * k) := (Nat.pow_mul 10 7 k).symm
    _ = 10 ^ (k * 7) := by rw [Nat.mul_comm]
    _ = tenTo k ^ 7 := Nat.pow_mul 10 k 7

namespace Decimal

/-! ## Decimals of one value -/

/-- The code nearest to a decimal, for exponents of any size. -/
def rounded (d : Decimal) : Nat :=
  Number.nearestCode (d.coefficient * tenTo d.exponent.toNat * unitsPerOne)
    (tenTo (-d.exponent).toNat)

/-- Whether two decimals have the same value. -/
def Agree (d d' : Decimal) : Prop :=
  d.coefficient * tenTo d.exponent.toNat * tenTo (-d'.exponent).toNat =
    d'.coefficient * tenTo d'.exponent.toNat * tenTo (-d.exponent).toNat

theorem rounded_congr {d d' : Decimal} (h : Agree d d') : d.rounded = d'.rounded := by
  refine nearestCode_congr (tenTo_pos _) (tenTo_pos _) ?_
  calc d.coefficient * tenTo d.exponent.toNat * unitsPerOne * tenTo (-d'.exponent).toNat
      = d.coefficient * tenTo d.exponent.toNat * tenTo (-d'.exponent).toNat * unitsPerOne :=
        Nat.mul_right_comm _ _ _
    _ = d'.coefficient * tenTo d'.exponent.toNat * tenTo (-d.exponent).toNat * unitsPerOne := by
        rw [h]
    _ = d'.coefficient * tenTo d'.exponent.toNat * unitsPerOne * tenTo (-d.exponent).toNat :=
        Nat.mul_right_comm _ _ _

/-- Zeros at the end of a coefficient may count for the exponent. -/
theorem agree_zeros (coefficient zeros : Nat) (exponent : Int) :
    Agree ⟨coefficient * tenTo zeros, exponent⟩ ⟨coefficient, exponent + zeros⟩ := by
  have hsum : zeros + exponent.toNat + (-(exponent + zeros)).toNat =
      (exponent + zeros).toNat + (-exponent).toNat := by omega
  show coefficient * tenTo zeros * tenTo exponent.toNat * tenTo (-(exponent + zeros)).toNat =
    coefficient * tenTo (exponent + zeros).toNat * tenTo (-exponent).toNat
  calc coefficient * tenTo zeros * tenTo exponent.toNat * tenTo (-(exponent + zeros)).toNat
      = coefficient * tenTo (zeros + exponent.toNat + (-(exponent + zeros)).toNat) := by
        rw [tenTo_add, tenTo_add, Nat.mul_assoc, Nat.mul_assoc, Nat.mul_assoc]
    _ = coefficient * tenTo (exponent + zeros).toNat * tenTo (-exponent).toNat := by
        rw [hsum, tenTo_add, Nat.mul_assoc]

theorem rounded_of_nearestCode {d : Decimal} {code : Nat} (h : d.nearestCode = code)
    (hpos : 0 < code) (hfinite : code < overflowCode) : d.rounded = code := by
  unfold nearestCode at h
  split_ifs at h with hzero hlarge hsmall
  · omega
  · omega
  · omega
  · exact h

/-- A decimal with so small an exponent is below half a unit. -/
theorem rounded_eq_zero {d : Decimal} (h : d.exponent + d.coefficient.log2 < -330) :
    d.rounded = 0 := by
  have hexponent : d.exponent.toNat = 0 := by omega
  refine nearestCode_eq_zero ?_
  rw [hexponent, show tenTo 0 = 1 from rfl, Nat.mul_one, unitsPerOne]
  calc twoTo 1 * (d.coefficient * twoTo 1074)
      < twoTo 1 * (twoTo (d.coefficient.log2 + 1) * twoTo 1074) := by
        refine Nat.mul_lt_mul_of_pos_left ?_ (twoTo_pos 1)
        exact Nat.mul_lt_mul_of_pos_right (lt_twoTo_log2 _) (twoTo_pos 1074)
    _ = twoTo (1 + (d.coefficient.log2 + 1 + 1074)) := by rw [← twoTo_add, ← twoTo_add]
    _ ≤ tenTo (-d.exponent).toNat := twoTo_le_tenTo (by omega)

theorem rounded_zero {d : Decimal} (h : d.coefficient = 0) : d.rounded = 0 := by
  refine nearestCode_eq_zero ?_
  rw [h, Nat.zero_mul, Nat.zero_mul]
  exact tenTo_pos _

theorem nearestCode_of_rounded {d : Decimal} {code : Nat} (h : d.rounded = code) (hpos : 0 < code)
    (hexponent : d.exponent < 310) : d.nearestCode = code := by
  unfold nearestCode
  split_ifs with hzero hlarge hsmall
  · have := rounded_zero hzero
    omega
  · omega
  · have := rounded_eq_zero hsmall
    omega
  · exact h

/-! ## The shortest decimal -/

theorem rounded_exact (code : Nat) : (exact code).rounded = code := by
  have hscaled : ∀ {five unit ten : Nat}, unit * five = ten → 0 < ten →
      Number.nearestCode (units code * five * tenTo 0 * unit) ten = code := by
    rintro five unit ten rfl hten
    refine Eq.trans ?_ (nearestCode_units code)
    refine nearestCode_congr hten Nat.one_pos ?_
    rw [show tenTo 0 = 1 from rfl, Nat.mul_one, Nat.mul_one, Nat.mul_assoc, Nat.mul_comm five]
  refine hscaled ?_ (tenTo_pos _)
  rw [unitsPerOne, twoTo_mul_five]
  rfl

theorem nearestCode_exact {code : Nat} (hpos : 0 < code) : (exact code).nearestCode = code :=
  nearestCode_of_rounded (rounded_exact code) hpos (show (-1074 : Int) < 310 by decide)

/-- The shortest decimal of a code reads back as the code. -/
theorem nearestCode_shortest (tie : Tie) {code : Nat} (hpos : 0 < code) :
    (shortest tie code).nearestCode = code := by
  have hfind : ∀ (found : Option Decimal) (other : Decimal), other.nearestCode = code →
      (∀ d ∈ found, d.nearestCode = code) → (found.getD other).nearestCode = code := by
    rintro (_ | d) other hother hd
    · exact hother
    · exact hd d rfl
  unfold shortest
  refine hfind _ _ (nearestCode_exact hpos) fun d hd => ?_
  obtain ⟨n, -, hn⟩ := List.exists_of_findSome?_eq_some hd
  simpa using List.find?_some hn

/-! ## Digits -/

theorem exists_zeros (l : List Char) :
    ∃ zeros, l = (l.reverse.dropWhile (· == '0')).reverse ++ List.replicate zeros '0' := by
  have hall : l.reverse.takeWhile (· == '0') =
      List.replicate (l.reverse.takeWhile (· == '0')).length '0' := by
    refine List.eq_replicate_of_mem fun c hc => ?_
    simpa using List.all_eq_true.1 List.all_takeWhile c hc
  refine ⟨(l.reverse.takeWhile (· == '0')).length, ?_⟩
  have hsplit := congrArg List.reverse (List.takeWhile_append_dropWhile (p := (· == '0')) (l := l.reverse))
  rw [List.reverse_append, List.reverse_reverse, hall, List.reverse_replicate] at hsplit
  exact hsplit.symm

/-- The digits of a decimal are those of its coefficient without zeros at the end. -/
theorem digits_eq {d : Decimal} (h : d.coefficient ≠ 0) :
    ∃ (shown : List Char) (zeros : Nat), d.digits = (shown, d.exponent + (shown.length + zeros)) ∧
      shown ≠ [] ∧ (∀ c ∈ shown, c.isDigit) ∧
      d.coefficient = ofDigitChars 10 shown 0 * tenTo zeros := by
  obtain ⟨zeros, hwritten⟩ := exists_zeros (toDigits 10 d.coefficient)
  have hvalue : d.coefficient = ofDigitChars 10 (toDigits 10 d.coefficient) 0 :=
    Nat.ofDigitChars_ten_toDigits.symm
  generalize hshown : ((toDigits 10 d.coefficient).reverse.dropWhile (· == '0')).reverse = shown
    at hwritten
  rw [hwritten, Nat.ofDigitChars_append, Nat.ofDigitChars_replicate_zero] at hvalue
  refine ⟨shown, zeros, ?_, ?_, ?_, ?_⟩
  · rw [digits, hshown, hwritten, List.length_append, List.length_replicate]
    rfl
  · rintro rfl
    rw [Nat.ofDigitChars_nil, Nat.mul_zero] at hvalue
    exact h hvalue
  · intro c hc
    refine Nat.isDigit_of_mem_toDigits (b := 10) (n := d.coefficient) (by decide) (by decide) ?_
    rw [hwritten]
    exact List.mem_append_left _ hc
  · rw [Nat.mul_comm]
    exact hvalue

/-! ## Reading plain text -/

/-- Digits, with at most one point between them. -/
def Plain (text : List Char) : Prop :=
  ∃ whole fraction : List Char, whole ≠ [] ∧ (∀ c ∈ whole, c.isDigit) ∧
    (∀ c ∈ fraction, c.isDigit) ∧ (text = whole ∨ text = whole ++ '.' :: fraction)

/-- A run of characters ends where the first other one stands. -/
theorem takeWhile_append_stop {test : Char → Bool} {front rest : List Char}
    (hfront : ∀ c ∈ front, test c) (hrest : ∀ c ∈ rest.head?, test c = false) :
    (front ++ rest).takeWhile test = front ∧ (front ++ rest).dropWhile test = rest := by
  have hstop : rest.takeWhile test = [] ∧ rest.dropWhile test = rest := by
    cases rest with
    | nil => exact ⟨rfl, rfl⟩
    | cons c rest => simp [hrest c rfl]
  rw [List.takeWhile_append_of_pos hfront, List.dropWhile_append_of_pos hfront, hstop.1, hstop.2,
    List.append_nil]
  exact ⟨rfl, rfl⟩

theorem spanDigits_append {digits rest : List Char} (hdigits : ∀ c ∈ digits, c.isDigit)
    (hrest : ∀ c ∈ rest.head?, c.isDigit = false) : spanDigits (digits ++ rest) = (digits, rest) := by
  obtain ⟨htake, hdrop⟩ := takeWhile_append_stop hdigits hrest
  rw [spanDigits, htake, hdrop]

theorem spanDigits_self {digits : List Char} (hdigits : ∀ c ∈ digits, c.isDigit) :
    spanDigits digits = (digits, []) := by
  have hspan : spanDigits (digits ++ []) = (digits, []) := spanDigits_append hdigits (by simp)
  rwa [List.append_nil] at hspan

theorem read?_whole {whole : List Char} (hne : whole ≠ []) (hdigits : ∀ c ∈ whole, c.isDigit) :
    read? whole = some ⟨ofDigitChars 10 whole 0, 0⟩ := by
  have hspan : spanDigits whole = (whole, []) := spanDigits_self hdigits
  have hfalse : whole.isEmpty = false := by simpa using hne
  simp [read?, hspan, readFraction, readScale, hfalse]

theorem read?_fraction {whole fraction : List Char} (hne : whole ≠ [])
    (hwhole : ∀ c ∈ whole, c.isDigit) (hfraction : ∀ c ∈ fraction, c.isDigit) :
    read? (whole ++ '.' :: fraction) =
      some ⟨ofDigitChars 10 (whole ++ fraction) 0, -(fraction.length : Int)⟩ := by
  have hspan : spanDigits (whole ++ '.' :: fraction) = (whole, '.' :: fraction) := by
    refine spanDigits_append hwhole fun c hc => ?_
    cases hc
    decide
  have hspan' : spanDigits fraction = (fraction, []) := spanDigits_self hfraction
  have hfalse : whole.isEmpty = false := by simpa using hne
  simp [read?, hspan, hspan', readFraction, readScale, hfalse]

/-- A decimal starts with a digit or with its point. -/
theorem head_of_read? {text : List Char} {d : Decimal} (h : read? text = some d) :
    ∃ c rest, text = c :: rest ∧ (c.isDigit ∨ c = '.') := by
  cases text with
  | nil => cases h
  | cons c rest =>
    refine ⟨c, rest, rfl, ?_⟩
    by_contra hc
    rw [not_or] at hc
    have hspan : spanDigits (c :: rest) = ([], c :: rest) := by simp [spanDigits, hc.1]
    have hfraction : readFraction (c :: rest) = ([], c :: rest) := by
      unfold readFraction
      split
      · rename_i heq
        exact absurd (List.cons.inj heq).1 hc.2
      · rfl
    rw [read?, hspan] at h
    dsimp only at h
    rw [hfraction] at h
    cases h

/-- What reads as a decimal reads as a number. -/
theorem ofText?_of_read? {text : String} {d : Decimal} (h : read? text.toList = some d) :
    Binary64.ofText? text = some (toBinary64 false d) := by
  obtain ⟨c, rest, htext, hc⟩ := head_of_read? h
  have hlower : c.toLower = c := by
    rcases hc with hc | rfl
    · unfold Char.toLower
      refine dif_neg fun h => ?_
      have hbound : c.val ≤ 57 := by
        simp only [Char.isDigit, Bool.and_eq_true, decide_eq_true_eq] at hc
        exact hc.2
      exact absurd (UInt32.le_trans h.1 hbound) (by decide)
    · rfl
  have hne : ∀ d : Char, d.isDigit = false → d ≠ '.' → c ≠ d := by
    rintro d hd hpoint rfl
    rcases hc with hc | hc
    · rw [hd] at hc
      cases hc
    · exact hpoint hc
  unfold Binary64.ofText?
  rw [htext] at h ⊢
  split
  · rename_i heq
    exact absurd (List.cons.inj heq).1 (hne '+' (by decide) (by decide))
  · rename_i heq
    exact absurd (List.cons.inj heq).1 (hne '-' (by decide) (by decide))
  · rw [Binary64.readUnsigned?]
    simp only [List.map_cons, hlower]
    rw [if_neg, if_neg, h]
    · rfl
    · intro heq
      exact hne 'n' (by decide) (by decide) (List.cons.inj heq).1
    · rintro (heq | heq)
      · exact hne 'i' (by decide) (by decide) (List.cons.inj heq).1
      · exact hne 'i' (by decide) (by decide) (List.cons.inj heq).1

/-! ## Placing the point -/

theorem ofDigitChars_zeros (zeros : Nat) (digits : List Char) :
    ofDigitChars 10 (List.replicate zeros '0' ++ digits) 0 = ofDigitChars 10 digits 0 := by
  rw [Nat.ofDigitChars_append, Nat.ofDigitChars_replicate_zero, Nat.mul_zero]

/-- Without a fraction for whole numbers. -/
theorem placePoint_eq (digits : List Char) (point : Int) :
    Layout.placePoint false digits point =
      if point ≤ 0 then '0' :: '.' :: (List.replicate (-point).toNat '0' ++ digits)
      else if digits.length ≤ point.toNat then
        digits ++ List.replicate (point.toNat - digits.length) '0' ++ []
      else digits.take point.toNat ++ '.' :: digits.drop point.toNat := rfl

/-- Digits with a point after the first `point` of them read back as their value. -/
theorem read?_placePoint {shown : List Char} (hne : shown ≠ []) (hdigits : ∀ c ∈ shown, c.isDigit)
    (point : Int) :
    Plain (Layout.placePoint false shown point) ∧
      ∃ d, read? (Layout.placePoint false shown point) = some d ∧ d.exponent ≤ 0 ∧
        Agree ⟨ofDigitChars 10 shown 0, point - shown.length⟩ d := by
  have hzeros : ∀ n, ∀ c ∈ List.replicate n '0', c.isDigit := by
    intro n c hc
    rw [List.eq_of_mem_replicate hc]
    decide
  rw [placePoint_eq]
  split_ifs with hpoint hshort
  · have hfraction : ∀ c ∈ List.replicate (-point).toNat '0' ++ shown, c.isDigit := by
      intro c hc
      rcases List.mem_append.1 hc with hc | hc
      · exact hzeros _ c hc
      · exact hdigits c hc
    have hread := read?_fraction (List.cons_ne_nil '0' []) (hzeros 1) hfraction
    rw [← List.append_assoc, show ['0'] = List.replicate 1 '0' from rfl, List.replicate_append_replicate,
      ofDigitChars_zeros] at hread
    refine ⟨⟨['0'], _, List.cons_ne_nil _ _, hzeros 1, hfraction, .inr rfl⟩, _, hread, ?_, ?_⟩
    · show -((_ : Nat) : Int) ≤ 0
      omega
    · have hexponent : -((List.replicate (-point).toNat '0' ++ shown).length : Int) =
          point - shown.length := by
        rw [List.length_append, List.length_replicate]
        omega
      rw [hexponent]
      exact rfl
  · have hwhole : ∀ c ∈ shown ++ List.replicate (point.toNat - shown.length) '0', c.isDigit := by
      intro c hc
      rcases List.mem_append.1 hc with hc | hc
      · exact hdigits c hc
      · exact hzeros _ c hc
    have hsome : shown ++ List.replicate (point.toNat - shown.length) '0' ≠ [] :=
      List.append_ne_nil_of_left_ne_nil hne _
    have hread := read?_whole hsome hwhole
    rw [Nat.ofDigitChars_append, Nat.ofDigitChars_replicate_zero, Nat.mul_comm] at hread
    rw [List.append_nil]
    refine ⟨⟨_, [], hsome, hwhole, by simp, .inl rfl⟩, _, hread, Int.le_refl _, ?_⟩
    have hagree := agree_zeros (ofDigitChars 10 shown 0) (point.toNat - shown.length) 0
    rw [show (0 : Int) + (point.toNat - shown.length : Nat) = point - shown.length by omega]
      at hagree
    exact hagree.symm
  · have hsplit : shown.take point.toNat ++ shown.drop point.toNat = shown :=
      List.take_append_drop _ _
    have hsome : shown.take point.toNat ≠ [] := by
      intro hnil
      rcases List.take_eq_nil_iff.1 hnil with h | h
      · omega
      · exact hne h
    have hwhole : ∀ c ∈ shown.take point.toNat, c.isDigit := fun c hc =>
      hdigits c (List.mem_of_mem_take hc)
    have hfraction : ∀ c ∈ shown.drop point.toNat, c.isDigit := fun c hc =>
      hdigits c (List.mem_of_mem_drop hc)
    have hread := read?_fraction hsome hwhole hfraction
    rw [hsplit] at hread
    refine ⟨⟨_, _, hsome, hwhole, hfraction, .inr rfl⟩, _, hread, ?_, ?_⟩
    · show -((_ : Nat) : Int) ≤ 0
      omega
    · have hexponent : -((shown.drop point.toNat).length : Int) = point - shown.length := by
        rw [List.length_drop]
        omega
      rw [hexponent]
      exact rfl

/-- The digits of a decimal, with their point, read back as the code of the decimal. -/
theorem read?_digits {d : Decimal} {code : Nat} (h : d.nearestCode = code) (hpos : 0 < code)
    (hfinite : code < overflowCode) :
    Plain (Layout.placePoint false d.digits.1 d.digits.2) ∧
      ∃ d', read? (Layout.placePoint false d.digits.1 d.digits.2) = some d' ∧
        d'.nearestCode = code := by
  have hrounded := rounded_of_nearestCode h hpos hfinite
  have hcoefficient : d.coefficient ≠ 0 := by
    intro hzero
    rw [Decimal.nearestCode, if_pos hzero] at h
    omega
  obtain ⟨shown, zeros, hdigits, hne, hall, hvalue⟩ := digits_eq hcoefficient
  rw [hdigits]
  obtain ⟨hplain, d', hread, hexponent, hagree⟩ :=
    read?_placePoint hne hall (d.exponent + (shown.length + zeros))
  refine ⟨hplain, d', hread, nearestCode_of_rounded ?_ hpos (by omega)⟩
  have hsum : d.exponent + (shown.length + zeros) - shown.length = d.exponent + zeros := by omega
  rw [hsum] at hagree
  have hfirst := agree_zeros (ofDigitChars 10 shown 0) zeros d.exponent
  rw [← hvalue] at hfirst
  rw [← rounded_congr hagree, ← rounded_congr hfirst]
  exact hrounded

end Decimal

namespace Layout

open Decimal

/-- The text of a magnitude is plain, and it reads back as the magnitude. -/
theorem read?_writeCode (code : Fin overflowCode) :
    Plain (canonical.writeCode code) ∧
      ∃ d, read? (canonical.writeCode code) = some d ∧ d.nearestCode = code := by
  rw [writeCode]
  split_ifs with hzero
  · have hone := read?_whole (List.cons_ne_nil '0' []) (by simp)
    refine ⟨⟨['0'], [], List.cons_ne_nil _ _, by simp, by simp, .inl rfl⟩, _, hone, ?_⟩
    rw [hzero]
    rfl
  · have hpos : 0 < code.val := Nat.pos_of_ne_zero hzero
    exact read?_digits (nearestCode_shortest canonical.tie hpos) hpos code.isLt

end Layout

/-- A number without a sign reads back as it is written. -/
theorem ofText?_write (code : Fin overflowCode) :
    Binary64.ofText? (Layout.canonical.write (.finite false code)) = some (.finite false code) := by
  obtain ⟨-, d, hread, hcode⟩ := Layout.read?_writeCode code
  have hwrite : (Layout.canonical.write (.finite false code)).toList =
      Layout.canonical.writeCode code := String.toList_ofList
  rw [← hwrite] at hread
  rw [Decimal.ofText?_of_read? hread, Decimal.toBinary64, hcode, Binary64.ofCode, dif_pos code.isLt]

end SheetFormula.Number
