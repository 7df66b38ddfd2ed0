import Mathlib.Algebra.Order.Archimedean.Basic
import Mathlib.Data.Nat.Find
import Mathlib.Tactic.FieldSimp
import Mathlib.Tactic.Linarith
import SheetFormula.Proofs.Rounding

/-!
# The nearest binary64 number

What rounding means, in rational numbers and without an algorithm.

1. `magnitude` is the value of a code. Codes are ordered as their values: `magnitude_strictMono`.
2. `nearest` is the code that a value is rounded to: the least one that is not below the value by more
   than half of the way to the next code. No other code is as near, unless the code is even:
   `nearest_closest`.
3. Rounding a quotient of least units by one division finds this code: `nearestCode_eq_nearest`.
-/

namespace SheetFormula.Number

/-! ## Magnitudes -/

/-- The value that a code stands for. The codes below `2 ^ 52` count least units. In all others the
fraction field has a bit more in front of it, and the exponent field says how often it is doubled. -/
def magnitude (code : Nat) : ℚ :=
  if code < 2 ^ 52 then code / 2 ^ 1074
  else (2 ^ 52 + code % 2 ^ 52 : Nat) * 2 ^ (code / 2 ^ 52 - 1) / 2 ^ 1074

/-- The units of a code with this shift and this significand, which may be the next power of two. -/
theorem units_of_significand {shift significand : Nat} (hhigh : significand ≤ twoTo 53)
    (hlow : shift = 0 ∨ twoTo 52 ≤ significand) :
    units (shift * twoTo 52 + significand) = significand * twoTo shift := by
  have h53 : twoTo 53 = 2 * twoTo 52 := twoTo_add 1 52
  have hpos : 0 < twoTo 52 := twoTo_pos 52
  have hfield : (shift * twoTo 52 + significand) / twoTo 52 = shift + significand / twoTo 52 := by
    rw [Nat.add_comm, Nat.add_mul_div_right _ _ hpos, Nat.add_comm]
  rcases Nat.lt_or_ge significand (twoTo 52) with hsmall | hlarge
  · obtain rfl : shift = 0 := hlow.resolve_right (Nat.not_le.2 hsmall)
    simp only [units, hfield, Nat.div_eq_of_lt hsmall]
    simp
  rcases Nat.lt_or_ge significand (2 * twoTo 52) with hnormal | hcarry
  · have hone : significand / twoTo 52 = 1 :=
      Nat.div_eq_of_lt_le (by omega) (by omega)
    simp only [units, hfield, hone, Nat.add_sub_cancel, Nat.add_sub_cancel_left]
  · obtain rfl : significand = 2 * twoTo 52 := by omega
    have hshift : (shift + 1) * twoTo 52 = shift * twoTo 52 + twoTo 52 := Nat.succ_mul _ _
    have hrest : shift * twoTo 52 + 2 * twoTo 52 - (shift + 1) * twoTo 52 = twoTo 52 := by omega
    simp only [units, hfield, Nat.mul_div_cancel _ hpos]
    rw [show shift + 2 - 1 = shift + 1 by omega, hrest, twoTo_add,
      show twoTo 1 = 2 from rfl]
    ac_rfl

theorem unitsPerOne_pos : (0 : ℚ) < unitsPerOne := Nat.cast_pos.2 (twoTo_pos 1074)

theorem magnitude_eq (code : Nat) : magnitude code = units code / unitsPerOne := by
  have hpower : ∀ n, (twoTo n : ℚ) = 2 ^ n := fun n => Nat.cast_pow 2 n
  rw [magnitude, unitsPerOne, hpower]
  split
  · rename_i hsmall
    have hunits : units (0 * twoTo 52 + code) = code * twoTo 0 :=
      units_of_significand (Nat.le_trans hsmall.le (twoTo_le (by decide))) (.inl rfl)
    rw [Nat.zero_mul, Nat.zero_add] at hunits
    rw [hunits, show twoTo 0 = 1 from rfl, Nat.mul_one]
  · rename_i hlarge
    have hsplit := Nat.div_add_mod code (2 ^ 52)
    have hfraction : code % 2 ^ 52 < 2 ^ 52 := Nat.mod_lt _ (by decide)
    have hhigh : 2 ^ 52 + code % 2 ^ 52 ≤ twoTo 53 := by
      show _ ≤ 2 ^ 53
      omega
    have hunits : units ((code / 2 ^ 52 - 1) * twoTo 52 + (2 ^ 52 + code % 2 ^ 52)) =
        (2 ^ 52 + code % 2 ^ 52) * twoTo (code / 2 ^ 52 - 1) :=
      units_of_significand hhigh (.inr (Nat.le_add_right _ _))
    have hcode : (code / 2 ^ 52 - 1) * twoTo 52 + (2 ^ 52 + code % 2 ^ 52) = code := by
      show (code / 2 ^ 52 - 1) * 2 ^ 52 + _ = _
      omega
    rw [hcode] at hunits
    rw [hunits, Nat.cast_mul, hpower]

/-- The units of the next code are larger by the spacing of the code. -/
theorem units_succ (code : Nat) :
    ∃ shift significand, code = shift * twoTo 52 + significand ∧
      units code = significand * twoTo shift ∧ units (code + 1) = (significand + 1) * twoTo shift := by
  obtain ⟨shift, significand, hcode, hunits, hhigh, hlow, -⟩ := exists_significand code
  refine ⟨shift, significand, hcode, hunits, ?_⟩
  rw [hcode, Nat.add_assoc]
  exact units_of_significand hhigh (hlow.imp_right Nat.le_succ_of_le)

/-- The code behind this one is at least one spacing above it. -/
theorem le_units_succ {shift significand : Nat} (hhigh : significand ≤ twoTo 53)
    (hlow : shift = 0 ∨ twoTo 52 ≤ significand) :
    (significand + 1) * twoTo shift ≤ units (shift * twoTo 52 + significand + 1) := by
  rcases Nat.lt_or_eq_of_le hhigh with hless | rfl
  · rw [Nat.add_assoc, units_of_significand hless (hlow.imp_right Nat.le_succ_of_le)]
  · have h53 : twoTo 53 = 2 * twoTo 52 := twoTo_add 1 52
    have hcode : shift * twoTo 52 + twoTo 53 + 1 = (shift + 1) * twoTo 52 + (twoTo 52 + 1) := by
      rw [h53, Nat.succ_mul shift]
      omega
    have hsum : twoTo 52 + 1 ≤ twoTo 53 := by
      rw [h53]
      exact Nat.add_le_add_left (twoTo_pos 52) _
    have hunits : units ((shift + 1) * twoTo 52 + (twoTo 52 + 1)) =
        (twoTo 52 + 1) * twoTo (shift + 1) :=
      units_of_significand hsum (.inr (Nat.le_add_right _ _))
    rw [hcode, hunits, twoTo_add, h53, show twoTo 1 = 2 from rfl, ← Nat.mul_assoc,
      Nat.mul_right_comm _ _ 2]
    exact Nat.mul_le_mul_right _ (by omega)

theorem units_strictMono : StrictMono units := by
  refine strictMono_nat_of_lt_succ fun code => ?_
  obtain ⟨shift, significand, -, hunits, hnext⟩ := units_succ code
  rw [hunits, hnext]
  exact Nat.mul_lt_mul_of_pos_right (Nat.lt_succ_self _) (twoTo_pos _)

theorem magnitude_strictMono : StrictMono magnitude := by
  intro code other h
  rw [magnitude_eq, magnitude_eq, div_lt_div_iff_of_pos_right unitsPerOne_pos]
  exact Nat.cast_lt.2 (units_strictMono h)

/-! ## Rounding -/

/-- Whether a value is rounded to a code or to a lower one: it lies below the midpoint of the code
and the next one, or at the midpoint if the code is even. -/
def RoundsWithin (x : ℚ) (code : Nat) : Prop :=
  2 * x < magnitude code + magnitude (code + 1) ∨
    2 * x = magnitude code + magnitude (code + 1) ∧ code % 2 = 0

instance (x : ℚ) (code : Nat) : Decidable (RoundsWithin x code) :=
  inferInstanceAs (Decidable (_ ∨ _))

theorem exists_roundsWithin (x : ℚ) : ∃ code, RoundsWithin x code := by
  obtain ⟨code, hcode⟩ := exists_nat_gt (x * unitsPerOne)
  have hunits : code ≤ units code := units_strictMono.le_apply
  have hlow : x < magnitude code := by
    rw [magnitude_eq, lt_div_iff₀ unitsPerOne_pos]
    exact lt_of_lt_of_le hcode (Nat.cast_le.2 hunits)
  have hhigh : magnitude code < magnitude (code + 1) := magnitude_strictMono (Nat.lt_succ_self _)
  exact ⟨code, .inl (by linarith)⟩

/-- The code that a value is rounded to. -/
def nearest (x : ℚ) : Nat := Nat.find (exists_roundsWithin x)

theorem roundsWithin_nearest (x : ℚ) : RoundsWithin x (nearest x) := Nat.find_spec (exists_roundsWithin x)

/-- A value that has a code at or below it is not rounded to a lower one. -/
theorem le_nearest {x : ℚ} {code : Nat} (h : magnitude code ≤ x) : code ≤ nearest x := by
  by_contra hlow
  have hnext : magnitude (nearest x + 1) ≤ magnitude code :=
    magnitude_strictMono.monotone (Nat.not_le.1 hlow)
  have hless : magnitude (nearest x) < magnitude (nearest x + 1) :=
    magnitude_strictMono (Nat.lt_succ_self _)
  rcases roundsWithin_nearest x with hx | ⟨hx, -⟩ <;> linarith

/-- Of two values the nearer one is on the same side of their midpoint. -/
theorem abs_sub_lt_abs_sub {a b x : ℚ} (h : 0 < (b - a) * (a + b - 2 * x)) : |x - a| < |x - b| := by
  refine sq_lt_sq.1 ?_
  have hdifference : (x - b) ^ 2 - (x - a) ^ 2 = (b - a) * (a + b - 2 * x) := by ring
  linarith

theorem abs_sub_eq_abs_sub {a b x : ℚ} (h : a + b = 2 * x) : |x - a| = |x - b| := by
  rw [show x - a = -(x - b) by linarith, abs_neg]

/-- No other code is as near to a value as the one that it is rounded to, unless that one is even. -/
theorem nearest_closest {x : ℚ} {other : Nat} (h : other ≠ nearest x) :
    |x - magnitude (nearest x)| < |x - magnitude other| ∨
      |x - magnitude (nearest x)| = |x - magnitude other| ∧ nearest x % 2 = 0 := by
  rcases Nat.lt_or_gt_of_ne h with hbelow | habove
  · obtain ⟨low, hlow⟩ : ∃ low, nearest x = low + 1 := ⟨nearest x - 1, by omega⟩
    have hnot : ¬ RoundsWithin x low :=
      Nat.find_min (exists_roundsWithin x) (show low < nearest x by omega)
    have hmidpoint : magnitude low + magnitude (low + 1) ≤ 2 * x :=
      not_lt.1 fun hlt => hnot (.inl hlt)
    have hother : magnitude other ≤ magnitude low := magnitude_strictMono.monotone (by omega)
    have hless : magnitude other < magnitude (low + 1) := magnitude_strictMono (by omega)
    rw [hlow]
    rcases (show magnitude (low + 1) + magnitude other ≤ 2 * x by linarith).lt_or_eq with hlt | heq
    · exact .inl (abs_sub_lt_abs_sub (mul_pos_of_neg_of_neg (by linarith) (by linarith)))
    · have hodd : low % 2 ≠ 0 := fun heven => hnot (.inr ⟨by linarith, heven⟩)
      exact .inr ⟨abs_sub_eq_abs_sub heq, by omega⟩
  · have hother : magnitude (nearest x + 1) ≤ magnitude other := magnitude_strictMono.monotone habove
    have hless : magnitude (nearest x) < magnitude other := magnitude_strictMono habove
    rcases roundsWithin_nearest x with hx | ⟨hx, heven⟩
    · exact .inl (abs_sub_lt_abs_sub (mul_pos (by linarith) (by linarith)))
    · rcases hother.lt_or_eq with hlt | heq
      · exact .inl (abs_sub_lt_abs_sub (mul_pos (by linarith) (by linarith)))
      · exact .inr ⟨abs_sub_eq_abs_sub (by rw [← heq, hx]), heven⟩

/-! ## Rounding by one division -/

section

variable {num den : Nat}

theorem le_roundHalfEven : num / den ≤ roundHalfEven num den := by
  unfold roundHalfEven
  dsimp only
  split_ifs <;> omega

/-- A quotient is at most one half away from the number that it is rounded to, and less if that
number is odd. -/
theorem roundHalfEven_near (hden : 0 < den) {rounded : Nat} (h : roundHalfEven num den = rounded) :
    2 * num ≤ 2 * (rounded * den) + den ∧ 2 * (rounded * den) ≤ 2 * num + den ∧
      (rounded % 2 = 0 ∨
        2 * num < 2 * (rounded * den) + den ∧ 2 * (rounded * den) < 2 * num + den) := by
  have hsplit : num / den * den + num % den = num := Nat.div_add_mod' num den
  have hrest : num % den < den := Nat.mod_lt _ hden
  unfold roundHalfEven at h
  generalize num / den = quotient at hsplit h
  generalize num % den = rest at hsplit hrest h
  dsimp only at h
  split_ifs at h with hbelow habove
  · subst h
    omega
  · subst h
    rw [Nat.add_mul]
    omega
  · rcases Nat.mod_two_eq_zero_or_one quotient with heven | hodd
    · obtain rfl : quotient = rounded := by omega
      omega
    · obtain rfl : quotient + 1 = rounded := by omega
      rw [Nat.add_mul]
      omega

theorem roundsWithin_iff (hden : 0 < den) {code : Nat} :
    RoundsWithin (num / den / unitsPerOne) code ↔
      2 * num < den * (units code + units (code + 1)) ∨
        2 * num = den * (units code + units (code + 1)) ∧ code % 2 = 0 := by
  have hden' : (0 : ℚ) < den := Nat.cast_pos.2 hden
  have hunit := unitsPerOne_pos
  have hvalue : (2 : ℚ) * (num / den / unitsPerOne) = 2 * num / den / unitsPerOne := by ring
  have hdouble : (2 : ℚ) * num = (2 * num : Nat) := (Nat.cast_mul 2 num).symm
  rw [RoundsWithin, magnitude_eq, magnitude_eq, ← add_div, hvalue,
    div_lt_div_iff_of_pos_right hunit, div_left_inj' hunit.ne', div_lt_iff₀' hden',
    div_eq_iff hden'.ne', mul_comm _ (den : ℚ), hdouble, ← Nat.cast_add, ← Nat.cast_mul,
    Nat.cast_lt, Nat.cast_inj]

/-- The code of a quotient is a shift and the significand that is rounded at it. -/
theorem nearestCode_shape (num den : Nat) :
    ∃ shift significand, nearestCode num den = shift * twoTo 52 + significand ∧
      roundHalfEven num (den * twoTo shift) = significand ∧ significand ≤ twoTo 53 ∧
      (shift = 0 ∨ twoTo 52 ≤ num / (den * twoTo shift)) := by
  refine ⟨(num / den).log2 - 52, _, rfl, rfl, ?_, ?_⟩
  · exact Nat.le_trans roundHalfEven_le (quotient_lt num den)
  · rcases Nat.eq_zero_or_pos ((num / den).log2 - 52) with hzero | hpos
    · exact .inl hzero
    · right
      have hquotient : num / den ≠ 0 := by
        rintro hzero
        rw [hzero] at hpos
        cases hpos
      rw [← Nat.div_div_eq_div_mul, Nat.le_div_iff_mul_le (twoTo_pos _), ← twoTo_add,
        Nat.add_sub_cancel' (by omega)]
      exact Nat.log2_self_le hquotient

theorem code_mod_two (shift significand : Nat) :
    (shift * twoTo 52 + significand) % 2 = significand % 2 := by
  show (shift * (2 * 2 ^ 51) + significand) % 2 = _
  omega

variable {shift significand : Nat}

/-- The units of a code count its spacing. -/
theorem mul_units (hhigh : significand ≤ twoTo 53) (hlow : shift = 0 ∨ twoTo 52 ≤ significand) :
    den * units (shift * twoTo 52 + significand) = significand * (den * twoTo shift) := by
  rw [units_of_significand hhigh hlow, Nat.mul_left_comm]

/-- A quotient is rounded to the code of its rounded significand or to a lower one. -/
theorem roundsWithin_code (hden : 0 < den)
    (hround : roundHalfEven num (den * twoTo shift) = significand) (hhigh : significand ≤ twoTo 53)
    (hlow : shift = 0 ∨ twoTo 52 ≤ significand) :
    RoundsWithin (num / den / unitsPerOne) (shift * twoTo 52 + significand) := by
  obtain ⟨habove, -, heven⟩ := roundHalfEven_near (Nat.mul_pos hden (twoTo_pos shift)) hround
  have hunits : den * units (shift * twoTo 52 + significand) = significand * (den * twoTo shift) :=
    mul_units hhigh hlow
  have hnext : (significand + 1) * (den * twoTo shift) ≤
      den * units (shift * twoTo 52 + significand + 1) := by
    rw [← Nat.mul_left_comm]
    exact Nat.mul_le_mul_left _ (le_units_succ hhigh hlow)
  rw [Nat.succ_mul] at hnext
  rw [roundsWithin_iff hden, code_mod_two, Nat.mul_add]
  omega

/-- A quotient is not rounded to a code below that of its rounded significand. -/
theorem not_roundsWithin_of_lt (hden : 0 < den)
    (hround : roundHalfEven num (den * twoTo shift) = significand) (hhigh : significand ≤ twoTo 53)
    (hlow : shift = 0 ∨ twoTo 52 ≤ num / (den * twoTo shift)) {code : Nat}
    (hless : code < shift * twoTo 52 + significand) :
    ¬ RoundsWithin (num / den / unitsPerOne) code := by
  obtain ⟨-, hbelow, heven⟩ := roundHalfEven_near (Nat.mul_pos hden (twoTo_pos shift)) hround
  have hquotient : num / (den * twoTo shift) ≤ significand := hround ▸ le_roundHalfEven
  have hunits : den * units (shift * twoTo 52 + significand) = significand * (den * twoTo shift) :=
    mul_units hhigh (hlow.imp_right fun h => Nat.le_trans h hquotient)
  have hcap : den * units (code + 1) ≤ den * units (shift * twoTo 52 + significand) :=
    Nat.mul_le_mul_left _ (units_strictMono.monotone hless)
  rw [roundsWithin_iff hden, Nat.mul_add]
  rcases Nat.lt_or_ge num (significand * (den * twoTo shift)) with hup | hdown
  · -- Where the quotient is rounded up, the code below has the same spacing.
    have hover : num / (den * twoTo shift) < significand :=
      Nat.div_lt_of_lt_mul (by rwa [Nat.mul_comm] at hup)
    obtain ⟨below, rfl⟩ : ∃ below, significand = below + 1 :=
      Nat.exists_eq_add_one.2 (Nat.zero_lt_of_lt hover)
    have hbehind : den * units (shift * twoTo 52 + below) = below * (den * twoTo shift) :=
      mul_units (by omega) (hlow.imp_right fun h => Nat.le_trans h (Nat.le_of_lt_succ hover))
    have hfloor : den * units code ≤ den * units (shift * twoTo 52 + below) :=
      Nat.mul_le_mul_left _ (units_strictMono.monotone (by omega))
    have hparity := code_mod_two shift (below + 1)
    have hfloor' : code % 2 = 0 → (below + 1) % 2 = 0 →
        den * units code < den * units (shift * twoTo 52 + below) := fun hcode hbelow =>
      Nat.mul_lt_mul_of_pos_left (units_strictMono (by omega)) hden
    rw [Nat.succ_mul below] at hunits hbelow heven
    omega
  · have hfloor : den * units code < den * units (shift * twoTo 52 + significand) :=
      Nat.mul_lt_mul_of_pos_left (units_strictMono hless) hden
    omega

/-- The code that one division gives is the one that the quotient is rounded to. -/
theorem nearestCode_eq_nearest (hden : 0 < den) :
    nearestCode num den = nearest (num / den / unitsPerOne) := by
  obtain ⟨shift, significand, hcode, hround, hhigh, hlow⟩ := nearestCode_shape num den
  have hquotient : num / (den * twoTo shift) ≤ significand := hround ▸ le_roundHalfEven
  have hwithin := roundsWithin_code hden hround hhigh
    (hlow.imp_right fun h => Nat.le_trans h hquotient)
  have hleast : ∀ code < shift * twoTo 52 + significand,
      ¬ RoundsWithin (num / den / unitsPerOne) code :=
    fun code hless => not_roundsWithin_of_lt hden hround hhigh hlow hless
  rw [hcode]
  exact ((Nat.find_eq_iff _).2 ⟨hwithin, hleast⟩).symm

end

end SheetFormula.Number
