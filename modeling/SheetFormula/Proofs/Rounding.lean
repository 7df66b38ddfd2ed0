import Mathlib.Algebra.Order.Ring.Nat
import SheetFormula.Number.Binary64

/-!
# Rounding to binary64

1. `nearestCode` depends on the value of its quotient only: `nearestCode_congr`.
2. Every code is the nearest one to its own units: `nearestCode_units`.
3. A percentage of a finite number is finite: `percent_finite`.
-/

namespace SheetFormula.Number

theorem twoTo_pos (n : Nat) : 0 < twoTo n := Nat.two_pow_pos n

theorem twoTo_add (m n : Nat) : twoTo (m + n) = twoTo m * twoTo n := Nat.pow_add 2 m n

theorem twoTo_le {m n : Nat} (h : m ≤ n) : twoTo m ≤ twoTo n := Nat.pow_le_pow_right (by decide) h

theorem lt_twoTo_log2 (n : Nat) : n < twoTo (n.log2 + 1) := Nat.lt_log2_self

theorem log2_lt_of_lt {n k : Nat} (hn : n ≠ 0) (h : n < twoTo k) : n.log2 < k :=
  (Nat.log2_lt hn).2 h

theorem log2_eq {n k : Nat} (hlow : twoTo k ≤ n) (hhigh : n < twoTo (k + 1)) : n.log2 = k :=
  (Nat.log2_eq_iff (Nat.ne_of_gt (Nat.lt_of_lt_of_le (twoTo_pos k) hlow))).2 ⟨hlow, hhigh⟩

/-! ## Quotients of one value -/

section

variable {num den k : Nat}

theorem roundHalfEven_scale (hk : 0 < k) :
    roundHalfEven (num * k) (den * k) = roundHalfEven num den := by
  have hquotient : num * k / (den * k) = num / den := Nat.mul_div_mul_right _ _ hk
  have hremainder : num * k % (den * k) = num % den * k := Nat.mul_mod_mul_right _ _ _
  have hbelow : 2 * (num % den * k) < den * k ↔ 2 * (num % den) < den := by
    rw [← Nat.mul_assoc]
    exact Nat.mul_lt_mul_right hk
  have habove : den * k < 2 * (num % den * k) ↔ den < 2 * (num % den) := by
    rw [← Nat.mul_assoc]
    exact Nat.mul_lt_mul_right hk
  simp only [roundHalfEven, hquotient, hremainder, hbelow, habove]

theorem nearestCode_scale (hk : 0 < k) : nearestCode (num * k) (den * k) = nearestCode num den := by
  simp only [nearestCode, Nat.mul_div_mul_right _ _ hk, Nat.mul_right_comm den k,
    roundHalfEven_scale hk]

/-- Equal quotients have the same nearest code. -/
theorem nearestCode_congr {num' den' : Nat} (hden : 0 < den) (hden' : 0 < den')
    (h : num * den' = num' * den) : nearestCode num den = nearestCode num' den' := by
  calc nearestCode num den = nearestCode (num * den') (den * den') := (nearestCode_scale hden').symm
    _ = nearestCode (num' * den) (den' * den) := by rw [h, Nat.mul_comm den]
    _ = nearestCode num' den' := nearestCode_scale hden

theorem roundHalfEven_mul (hk : 0 < k) : roundHalfEven (num * k) k = num := by
  have hone : roundHalfEven (num * k) (1 * k) = roundHalfEven num 1 := roundHalfEven_scale hk
  rw [Nat.one_mul] at hone
  rw [hone]
  simp [roundHalfEven, Nat.mod_one]

theorem roundHalfEven_le : roundHalfEven num den ≤ num / den + 1 := by
  unfold roundHalfEven
  dsimp only
  split_ifs <;> omega

theorem nearestCode_eq_zero (h : 2 * num < den) : nearestCode num den = 0 := by
  have hquotient : num / den = 0 := Nat.div_eq_of_lt (by omega)
  have hround : roundHalfEven num den = 0 := by
    rw [roundHalfEven, hquotient, Nat.mod_eq_of_lt (by omega), if_pos h]
  rw [nearestCode, hquotient]
  show 0 * twoTo 52 + roundHalfEven num (den * twoTo 0) = 0
  rw [show den * twoTo 0 = den from Nat.mul_one den, hround, Nat.zero_mul]

/-- A quotient that is shifted to a significand has no more bits than one. -/
theorem quotient_lt (num den : Nat) :
    num / (den * twoTo ((num / den).log2 - 52)) < twoTo 53 := by
  rw [← Nat.div_div_eq_div_mul, Nat.div_lt_iff_lt_mul (twoTo_pos _), ← twoTo_add]
  exact Nat.lt_of_lt_of_le (lt_twoTo_log2 _) (twoTo_le (by omega))

/-- A quotient below the largest power of two that is finite has a finite code. -/
theorem nearestCode_lt (h : num / den < twoTo 2097) : nearestCode num den < overflowCode := by
  have hshift : (num / den).log2 - 52 ≤ 2044 := by
    by_cases hzero : num / den = 0
    · rw [hzero]
      decide
    · have := log2_lt_of_lt hzero h
      omega
  have hpart := quotient_lt num den
  have hround : roundHalfEven num (den * twoTo ((num / den).log2 - 52)) ≤
      num / (den * twoTo ((num / den).log2 - 52)) + 1 := roundHalfEven_le
  have h53 : twoTo 53 = 2 * twoTo 52 := twoTo_add 1 52
  have hcode : nearestCode num den ≤ ((num / den).log2 - 52) * twoTo 52 + 2 * twoTo 52 := by
    rw [nearestCode]
    omega
  calc nearestCode num den ≤ ((num / den).log2 - 52) * twoTo 52 + 2 * twoTo 52 := hcode
    _ = ((num / den).log2 - 52 + 2) * twoTo 52 := (Nat.add_mul _ _ _).symm
    _ < 2047 * twoTo 52 := Nat.mul_lt_mul_of_pos_right (by omega) (twoTo_pos 52)

end

/-! ## Codes -/

/-- A code is a shift and a significand, which has its highest bit unless the shift is zero. -/
theorem exists_significand (code : Nat) :
    ∃ shift significand, code = shift * twoTo 52 + significand ∧
      units code = significand * twoTo shift ∧ significand < twoTo 53 ∧
      (shift = 0 ∨ twoTo 52 ≤ significand) ∧ shift ≤ code / twoTo 52 := by
  have h53 : twoTo 53 = 2 * twoTo 52 := twoTo_add 1 52
  have hpos : 0 < twoTo 52 := twoTo_pos 52
  have hdivide : twoTo 52 * (code / twoTo 52) + code % twoTo 52 = code := Nat.div_add_mod _ _
  have hremainder : code % twoTo 52 < twoTo 52 := Nat.mod_lt _ hpos
  rw [Nat.mul_comm] at hdivide
  refine ⟨code / twoTo 52 - 1, code - (code / twoTo 52 - 1) * twoTo 52, ?_, rfl, ?_, ?_,
    Nat.sub_le _ _⟩
  · have : (code / twoTo 52 - 1) * twoTo 52 ≤ code / twoTo 52 * twoTo 52 :=
      Nat.mul_le_mul_right _ (Nat.sub_le _ _)
    omega
  · rcases Nat.eq_zero_or_pos (code / twoTo 52) with hzero | hlarge
    · rw [hzero] at hdivide ⊢
      omega
    · have := Nat.sub_mul (code / twoTo 52) 1 (twoTo 52)
      have := Nat.mul_le_mul_right (twoTo 52) hlarge
      omega
  · rcases Nat.eq_zero_or_pos (code / twoTo 52) with hzero | hlarge
    · exact .inl (by rw [hzero])
    · right
      have := Nat.sub_mul (code / twoTo 52) 1 (twoTo 52)
      have := Nat.mul_le_mul_right (twoTo 52) hlarge
      omega

/-- A code is the nearest one to the units that it stands for. -/
theorem nearestCode_units (code : Nat) : nearestCode (units code) 1 = code := by
  obtain ⟨shift, significand, hcode, hunits, hhigh, hlow, -⟩ := exists_significand code
  have hshift : (units code).log2 - 52 = shift := by
    rcases hlow with rfl | hlow
    · rw [hunits, show significand * twoTo 0 = significand from Nat.mul_one _]
      by_cases hzero : significand = 0
      · rw [hzero]
        rfl
      · have := log2_lt_of_lt hzero hhigh
        omega
    · have hlog : (units code).log2 = 52 + shift := by
        rw [hunits]
        refine log2_eq ?_ ?_
        · rw [twoTo_add]
          exact Nat.mul_le_mul_right _ hlow
        · rw [show 52 + shift + 1 = 53 + shift by omega, twoTo_add]
          exact Nat.mul_lt_mul_of_pos_right hhigh (twoTo_pos _)
      omega
  rw [nearestCode, Nat.div_one, hshift, Nat.one_mul, hunits, roundHalfEven_mul (twoTo_pos _)]
  exact hcode.symm

/-- The exponent of a code bounds the units that it stands for. -/
theorem units_lt_twoTo (code : Nat) : units code < twoTo (53 + code / twoTo 52) := by
  obtain ⟨shift, significand, -, hunits, hhigh, -, hshift⟩ := exists_significand code
  rw [hunits]
  calc significand * twoTo shift < twoTo 53 * twoTo shift :=
        Nat.mul_lt_mul_of_pos_right hhigh (twoTo_pos _)
    _ = twoTo (53 + shift) := (twoTo_add _ _).symm
    _ ≤ twoTo (53 + code / twoTo 52) := twoTo_le (Nat.add_le_add_left hshift 53)

theorem units_lt {code : Nat} (h : code < overflowCode) : units code < twoTo 2099 := by
  have hfield : code / twoTo 52 < 2047 := (Nat.div_lt_iff_lt_mul (twoTo_pos 52)).2 h
  exact Nat.lt_of_lt_of_le (units_lt_twoTo code) (twoTo_le (by omega))

theorem units_hundredth : units 0x3F847AE147AE147B < twoTo 1069 := by
  have hfield : (0x3F847AE147AE147B : Nat) / twoTo 52 = 1016 := by decide
  have hunits := units_lt_twoTo 0x3F847AE147AE147B
  rwa [hfield] at hunits

theorem Binary64.hundredth_eq :
    Binary64.hundredth = .finite false ⟨0x3F847AE147AE147B, by decide⟩ := rfl

/-- A percentage of a finite number that carries no sign is such a number. -/
theorem percent_finite (code : Fin overflowCode) :
    ∃ code', Binary64.percent (.finite false code) = .finite false code' := by
  have hbound : units code * units 0x3F847AE147AE147B / unitsPerOne < twoTo 2097 := by
    refine (Nat.div_lt_iff_lt_mul (twoTo_pos 1074)).2 ?_
    calc units code * units 0x3F847AE147AE147B
        < twoTo 2099 * twoTo 1069 :=
          Nat.mul_lt_mul_of_lt_of_lt (units_lt code.isLt) units_hundredth
      _ = twoTo (2099 + 1069) := (twoTo_add _ _).symm
      _ ≤ twoTo (2097 + 1074) := twoTo_le (by decide)
      _ = twoTo 2097 * twoTo 1074 := twoTo_add _ _
  refine ⟨⟨_, nearestCode_lt hbound⟩, ?_⟩
  rw [Binary64.percent, Binary64.hundredth_eq]
  show Binary64.ofCode false _ = _
  rw [Binary64.ofCode, dif_pos (nearestCode_lt hbound)]

end SheetFormula.Number
