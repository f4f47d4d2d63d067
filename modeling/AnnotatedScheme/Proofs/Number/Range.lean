import AnnotatedScheme.Proofs.Number.Exact

/-!
# Whole numbers in the range of doubles

Half a step above the largest double is the first whole number whose double is infinite. The double
of any other whole number is whole as well, so a plain numeral in this range is read exactly, unless
it is too long.

* `lt_roundDiv_iff`             a quotient is rounded beyond an odd number from the tie on;
* `Size.isSome_nearest?_whole`  which whole numbers have a nearest size; this is whole
                                (`Size.units_mod_of_whole`);
* `Double.isSome_toInt?_whole`  which whole numbers have a double that is whole; the others have an
                                infinite one (`Double.ofDecimal_of_overflow`);
* `Number.ofWhole`              what a whole number is read as, in digits of any scripts
                                (`Number.ofText?_whole`), if these are converted at all
                                (`Number.IsConverted`).
-/

namespace AnnotatedScheme

/-- A tie is rounded away from an odd number. -/
theorem lt_roundDiv_iff {num den n : Nat} (hden : 0 < den) (hodd : n % 2 = 1) :
    n < roundDiv num den ↔ (2 * n + 1) * den ≤ 2 * num := by
  have hdivision : den * (num / den) + num % den = num := Nat.div_add_mod num den
  have hmod : num % den < den := Nat.mod_lt num hden
  have hexpand : (2 * n + 1) * den = 2 * (den * n) + den := by
    rw [Nat.add_mul, Nat.one_mul, Nat.mul_assoc, Nat.mul_comm n]
  rcases Nat.lt_trichotomy (num / den) n with hlt | heq | hgt
  · have hproduct : den * (num / den) + den ≤ den * n := Nat.mul_le_mul_left den hlt
    have hround := roundDiv_le num den
    exact iff_of_false (by omega) (by omega)
  · rw [heq] at hdivision
    rw [roundDiv, heq]
    split <;> omega
  · have hproduct : den * n + den ≤ den * (num / den) := Nat.mul_le_mul_left den hgt
    have hround := le_roundDiv num den
    exact iff_of_true (by omega) (by omega)

namespace Double

/-- half a step above the largest double -/
def overflowThreshold : Nat := twoPow 1024 - twoPow 970

namespace Size

/-! ## sizes of whole numbers -/

/-- the leading digits of a whole number, rounded -/
def leading (m : Nat) : Nat := roundDiv (m * twoPow 52) (twoPow m.log2)

variable {m : Nat}

theorem leading_bounds (hm : m ≠ 0) : twoPow 52 ≤ leading m ∧ leading m ≤ twoPow 53 := by
  have hpos := twoPow_pos m.log2
  have hlow : twoPow 52 ≤ m * twoPow 52 / twoPow m.log2 := by
    rw [Nat.le_div_iff_mul_le hpos, Nat.mul_comm]
    exact Nat.mul_le_mul_right _ (Nat.log2_self_le hm)
  have hhigh : m * twoPow 52 / twoPow m.log2 < twoPow 53 := by
    have hlt : m * twoPow 52 < twoPow (m.log2 + 1) * twoPow 52 :=
      Nat.mul_lt_mul_of_pos_right Nat.lt_log2_self (twoPow_pos 52)
    have hpowers : twoPow (m.log2 + 1) * twoPow 52 = twoPow 53 * twoPow m.log2 := by
      rw [← twoPow_add, ← twoPow_add, Nat.add_comm 53, Nat.add_assoc]
    rwa [Nat.div_lt_iff_lt_mul hpos, ← hpowers]
  exact ⟨Nat.le_trans hlow (le_roundDiv _ _), Nat.le_trans (roundDiv_le _ _) hhigh⟩

theorem nearest?_zero (hm : m = 0) : nearest? (m * twoPow 1074) 1 = some zero := by
  rw [hm, Nat.zero_mul]
  exact nearest?_units zero

theorem nearest?_whole (hm : m ≠ 0) :
    nearest? (m * twoPow 1074) 1 =
      if leading m = twoPow 53 then make? (twoPow 52) (m.log2 + 1023)
      else make? (leading m) (m.log2 + 1022) := by
  have hscale : (m * twoPow 1074 / 1).log2 - 52 = m.log2 + 1022 := by
    rw [Nat.div_one, log2_mul_twoPow hm]
    omega
  have hround : roundDiv (m * twoPow 1074) (1 * twoPow (m.log2 + 1022)) = leading m := by
    have hnum : m * twoPow 1074 = m * twoPow 52 * twoPow 1022 := by
      have hsum : 1074 = 52 + 1022 := rfl
      rw [hsum, twoPow_add, Nat.mul_assoc]
    have hden : 1 * twoPow (m.log2 + 1022) = twoPow m.log2 * twoPow 1022 := by
      rw [Nat.one_mul, twoPow_add]
    rw [hnum, hden, roundDiv_mul_right _ _ (twoPow_pos 1022), leading]
  simp only [nearest?, hscale, hround]

theorem make?_eq_some {mantissa scale : Nat} {x : Size} (h : make? mantissa scale = some x) :
    x.mantissa = mantissa ∧ x.scale = scale := by
  unfold make? at h
  split at h
  · obtain rfl := Option.some.inj h
    exact ⟨rfl, rfl⟩
  · cases h

theorem units_of_nearest?_whole (hm : m ≠ 0) {x : Size}
    (h : nearest? (m * twoPow 1074) 1 = some x) : x.units = leading m * twoPow (m.log2 + 1022) := by
  rw [nearest?_whole hm] at h
  split at h
  · rename_i htop
    obtain ⟨hmantissa, hscale⟩ := make?_eq_some h
    rw [units, hmantissa, hscale, htop, ← twoPow_add, ← twoPow_add]
    exact congrArg twoPow (by omega)
  · obtain ⟨hmantissa, hscale⟩ := make?_eq_some h
    rw [units, hmantissa, hscale]

/-- The size nearest to a whole number is whole. -/
theorem units_mod_of_whole {x : Size} (h : nearest? (m * twoPow 1074) 1 = some x) :
    x.units % twoPow 1074 = 0 := by
  by_cases hm : m = 0
  · obtain rfl : zero = x := Option.some.inj ((nearest?_zero hm).symm.trans h)
    have hunits : zero.units = 0 := rfl
    rw [hunits, Nat.zero_mod]
  rw [units_of_nearest?_whole hm h]
  by_cases hlarge : 52 ≤ m.log2
  · have hpowers : twoPow 1074 ∣ twoPow (m.log2 + 1022) := twoPow_dvd_twoPow (by omega)
    exact Nat.mod_eq_zero_of_dvd (Nat.dvd_mul_left_of_dvd hpowers _)
  · -- all digits are leading ones, and nothing is rounded
    have hleading : leading m = m * twoPow (52 - m.log2) := by
      have hsplit : m * twoPow 52 = m * twoPow (52 - m.log2) * twoPow m.log2 := by
        rw [Nat.mul_assoc, ← twoPow_add, Nat.sub_add_cancel (by omega)]
      rw [leading, hsplit, roundDiv_mul_self _ (twoPow_pos _)]
    have hpowers : twoPow (52 - m.log2) * twoPow (m.log2 + 1022) = twoPow 1074 := by
      rw [← twoPow_add]
      exact congrArg twoPow (by omega)
    rw [hleading, Nat.mul_assoc, hpowers, Nat.mul_mod_left]

theorem isSome_make?_iff {mantissa scale : Nat} (hlow : twoPow 52 ≤ mantissa)
    (hhigh : mantissa < twoPow 53) : (make? mantissa scale).isSome ↔ scale ≤ 2045 := by
  unfold make?
  split
  · rename_i h
    exact iff_of_true rfl h.2.1
  · rename_i h
    exact iff_of_false Bool.false_ne_true fun hscale => h ⟨hhigh, hscale, .inr hlow⟩

theorem isSome_nearest?_iff_log2 (hm : m ≠ 0) :
    (nearest? (m * twoPow 1074) 1).isSome ↔
      m.log2 ≤ 1022 ∨ (m.log2 = 1023 ∧ leading m < twoPow 53) := by
  obtain ⟨hlow, hhigh⟩ := leading_bounds hm
  rw [nearest?_whole hm]
  split
  · rename_i htop
    rw [isSome_make?_iff (Nat.le_refl _) (by decide)]
    omega
  · rename_i htop
    rw [isSome_make?_iff hlow (by omega)]
    omega

/-- at the scale of the largest doubles -/
theorem leading_lt_iff (hlog : m.log2 = 1023) : leading m < twoPow 53 ↔ m < overflowThreshold := by
  have hodd : (twoPow 53 - 1) % 2 = 1 := by decide
  have hround : twoPow 53 - 1 < roundDiv (m * twoPow 52) (twoPow 1023) ↔ _ :=
    lt_roundDiv_iff (twoPow_pos 1023) hodd
  have hthreshold : (2 * (twoPow 53 - 1) + 1) * twoPow 1023 =
      overflowThreshold * (twoPow 52 * 2) := by decide +kernel
  rw [hthreshold, Nat.mul_comm 2, Nat.mul_assoc, Nat.mul_le_mul_right_iff (by decide)] at hround
  have hreach : twoPow 53 ≤ leading m ↔ overflowThreshold ≤ m := by
    rw [← hround, leading, hlog, Nat.lt_iff_add_one_le, Nat.sub_add_cancel (twoPow_pos 53)]
  exact Nat.not_le.symm.trans ((not_congr hreach).trans Nat.not_le)

theorem isSome_nearest?_whole : (nearest? (m * twoPow 1074) 1).isSome ↔ m < overflowThreshold := by
  have hlow : twoPow 1023 ≤ overflowThreshold := by decide +kernel
  have hhigh : overflowThreshold ≤ twoPow 1024 := Nat.sub_le _ _
  by_cases hm : m = 0
  · rw [nearest?_zero hm, hm]
    exact iff_of_true rfl (Nat.lt_of_lt_of_le (twoPow_pos 1023) hlow)
  have hself : twoPow m.log2 ≤ m := Nat.log2_self_le hm
  have hnext : m < twoPow (m.log2 + 1) := Nat.lt_log2_self
  rw [isSome_nearest?_iff_log2 hm]
  rcases Nat.lt_trichotomy m.log2 1023 with hlt | heq | hgt
  · have hpow : twoPow (m.log2 + 1) ≤ twoPow 1023 := twoPow_le_twoPow hlt
    exact iff_of_true (.inl (by omega)) (Nat.lt_of_lt_of_le hnext (Nat.le_trans hpow hlow))
  · rw [leading_lt_iff heq]
    exact ⟨fun h => (h.resolve_left (by omega)).2, fun h => .inr ⟨heq, h⟩⟩
  · have hpow : twoPow 1024 ≤ twoPow m.log2 := twoPow_le_twoPow hgt
    refine iff_of_false (by omega) (Nat.not_lt.mpr ?_)
    exact Nat.le_trans hhigh (Nat.le_trans hpow hself)

end Size

/-! ## doubles of whole numbers -/

variable (negative : Bool)

theorem ofDecimal_eq_nearest? (m : Nat) :
    ofDecimal ⟨negative, m, 0⟩ = ofSize? negative (Size.nearest? (m * twoPow 1074) 1) := by
  by_cases hm : m = 0
  · rw [ofDecimal, if_pos (.inl hm), Size.nearest?_zero hm, ofSize?]
  have hmagnitude : Decimal.magnitude ⟨negative, m, 0⟩ = digitCount m := Int.add_zero _
  by_cases hfar : 310 < digitCount m
  · -- too many digits for any double
    have hdigits : tenPow 310 ≤ m := Nat.le_of_not_lt fun hlt =>
      Nat.not_le.mpr hfar (digitCount_le_iff.mpr hlt)
    have hthreshold : overflowThreshold ≤ tenPow 310 := by decide +kernel
    have hnone : Size.nearest? (m * twoPow 1074) 1 = none := by
      rw [← Option.isNone_iff_eq_none, ← Option.not_isSome, Bool.not_eq_true', Bool.eq_false_iff]
      exact fun hsome => Nat.not_lt.mpr (Nat.le_trans hthreshold hdigits)
        (Size.isSome_nearest?_whole.mp hsome)
    rw [ofDecimal, hmagnitude, if_neg (not_or.mpr ⟨hm, by omega⟩), if_pos (by omega), hnone,
      ofSize?]
  · have hone : tenPow 0 = 1 := rfl
    rw [ofDecimal, hmagnitude, if_neg (not_or.mpr ⟨hm, by omega⟩), if_neg (by omega), ofRatio]
    show ofSize? negative (Size.nearest? (m * tenPow 0 * twoPow 1074) (tenPow 0)) = _
    rw [hone, Nat.mul_one]

theorem isSome_toInt?_whole (m : Nat) :
    (ofDecimal ⟨negative, m, 0⟩).toInt?.isSome ↔ m < overflowThreshold := by
  rw [ofDecimal_eq_nearest?, ← Size.isSome_nearest?_whole]
  cases h : Size.nearest? (m * twoPow 1074) 1 with
  | none => exact Iff.rfl
  | some x =>
    rw [ofSize?, isSome_toInt?_finite]
    exact iff_of_true (decide_eq_true (Size.units_mod_of_whole h)) rfl

theorem ofDecimal_of_overflow {m : Nat} (h : overflowThreshold ≤ m) :
    ofDecimal ⟨negative, m, 0⟩ = .infinite negative := by
  rw [ofDecimal_eq_nearest?]
  cases hsize : Size.nearest? (m * twoPow 1074) 1 with
  | none => rfl
  | some x =>
    have hsome : (Size.nearest? (m * twoPow 1074) 1).isSome := by rw [hsize]; rfl
    exact absurd (Size.isSome_nearest?_whole.mp hsome) (Nat.not_lt.mpr h)

end Double

/-! ## numbers -/

namespace Number

open Double

theorem inRange_int_iff {value : Int} :
    (Number.int value).InRange ↔ value.natAbs < overflowThreshold :=
  isSome_toInt?_whole false value.natAbs

/-- what a whole number is read as -/
def ofWhole (value : Int) : Number :=
  if value.natAbs < overflowThreshold then .int value else .double (.infinite (decide (value < 0)))

theorem ofWhole_eq_int_iff {value : Int} :
    ofWhole value = .int value ↔ value.natAbs < overflowThreshold := by
  unfold ofWhole
  split
  · rename_i h
    exact iff_of_true rfl h
  · rename_i h
    exact iff_of_false Number.noConfusion h

/-- the plain numerals that are read: not too long, or too large to be whole numbers -/
def IsConverted (digits : List Char) : Prop :=
  digits.length ≤ digitLimit ∨ overflowThreshold ≤ digitsValue digits

instance (digits : List Char) : Decidable (IsConverted digits) :=
  inferInstanceAs (Decidable (_ ∨ _))

theorem ofNumeral_plain (negative : Bool) (digits : List Char) :
    ofNumeral ⟨negative, digits, none, none⟩ =
      if IsConverted digits then .ok (ofWhole (Numeral.toInt ⟨negative, digits, none, none⟩))
      else .error ⟨digits.length⟩ := by
  have hsome := isSome_toInt?_whole negative (digitsValue digits)
  unfold ofWhole
  rw [ofNumeral, Numeral.toDouble, Numeral.toDecimal_plain, Numeral.natAbs_toInt]
  by_cases hlt : digitsValue digits < overflowThreshold
  · have hshort : IsConverted digits ↔ digits.length ≤ digitLimit :=
      or_iff_left (Nat.not_le.mpr hlt)
    rw [if_pos ⟨rfl, hsome.mpr hlt⟩, if_pos hlt]
    simp only [hshort]
  · have hle := Nat.not_lt.mp hlt
    have hpos : 0 < digitsValue digits := Nat.lt_of_lt_of_le (by decide +kernel) hle
    have hsign : decide (Numeral.toInt ⟨negative, digits, none, none⟩ < 0) = negative := by
      unfold Numeral.toInt
      cases negative with
      | true => exact decide_eq_true (show -(digitsValue digits : Int) < 0 by omega)
      | false => exact decide_eq_false (show ¬(digitsValue digits : Int) < 0 by omega)
    rw [if_neg fun h => hlt (hsome.mp h.2), if_pos (.inr hle), if_neg hlt,
      ofDecimal_of_overflow negative hle, hsign]

/-- the whole number that a sign, if any, and digits denote -/
def wholeValue (sign digits : List Char) : Int :=
  if sign = ['-'] then -digitsValue digits else digitsValue digits

theorem ofText?_whole {sign digits : List Char} (hsign : sign ∈ [[], ['+'], ['-']])
    (hne : digits ≠ []) (hdigits : ∀ c ∈ digits, isDecimalDigit c = true) :
    ofText? (sign ++ digits) =
      some (if IsConverted digits then .ok (ofWhole (wholeValue sign digits))
        else .error ⟨digits.length⟩) := by
  have hunsigned : Numeral.splitSign digits = (false, digits) :=
    Numeral.splitSign_signed false fun c hc => hdigits c (List.mem_of_head? hc)
  have hplain : ∀ negative, Numeral.splitSign (sign ++ digits) = (negative, digits) →
      ofText? (sign ++ digits) = some (if IsConverted digits then
        .ok (ofWhole (Numeral.toInt ⟨negative, digits, none, none⟩))
          else .error ⟨digits.length⟩) := by
    intro negative hsplit
    rw [ofText?, Numeral.ofText?_of_digits hsplit hne hdigits, Option.map_some, ofNumeral_plain]
  simp only [List.mem_cons, List.not_mem_nil, or_false] at hsign
  rcases hsign with rfl | rfl | rfl
  · exact hplain false hunsigned
  · exact hplain false rfl
  · exact hplain true rfl

end Number

end AnnotatedScheme
