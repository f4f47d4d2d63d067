import AnnotatedScheme.Number.Shortest

/-!
# Fractions with the same value have the same nearest double

* `Double.ofDecimal_shift`      zeros behind the digits of a fraction, and the exponent less by as
                                many, make no difference;
* `Double.ofDecimal_of_value`   a fraction that is the value of a double has this double;
* `Double.Size.ofDecimal_shortest`  the shortest digits of a double are read as the double.
-/

namespace AnnotatedScheme

/-! ## powers -/

theorem twoPow_pos (n : Nat) : 0 < twoPow n := Nat.two_pow_pos n

theorem twoPow_le_twoPow {m n : Nat} (h : m ≤ n) : twoPow m ≤ twoPow n :=
  Nat.pow_le_pow_right (by decide) h

theorem twoPow_dvd_twoPow {m n : Nat} (h : m ≤ n) : twoPow m ∣ twoPow n := Nat.pow_dvd_pow 2 h

theorem twoPow_add (m n : Nat) : twoPow (m + n) = twoPow m * twoPow n := Nat.pow_add 2 m n

theorem tenPow_pos (n : Nat) : 0 < tenPow n := Nat.pow_pos (by decide)

theorem tenPow_ne_zero (n : Nat) : tenPow n ≠ 0 := Nat.ne_of_gt (tenPow_pos n)

theorem tenPow_succ (n : Nat) : tenPow (n + 1) = tenPow n * 10 := rfl

theorem tenPow_add (m n : Nat) : tenPow (m + n) = tenPow m * tenPow n := Nat.pow_add 10 m n

theorem fivePow_mul_twoPow (n : Nat) : Nat.pow 5 n * twoPow n = tenPow n :=
  (Nat.mul_pow 5 2 n).symm

/-! ## rounding -/

theorem roundDiv_mul_right (num den : Nat) {k : Nat} (hk : 0 < k) :
    roundDiv (num * k) (den * k) = roundDiv num den := by
  have hdouble : 2 * (num % den * k) = 2 * (num % den) * k := (Nat.mul_assoc _ _ _).symm
  have hlt : 2 * (num % den) * k < den * k ↔ 2 * (num % den) < den := Nat.mul_lt_mul_right hk
  have heq : 2 * (num % den) * k = den * k ↔ 2 * (num % den) = den :=
    Nat.mul_left_inj (Nat.ne_of_gt hk)
  simp only [roundDiv, Nat.mul_mod_mul_right, Nat.mul_div_mul_right _ _ hk, hdouble, hlt, heq]

namespace Double

namespace Size

/-- The nearest size depends on the ratio only. -/
theorem nearest?_congr {num den num' den' : Nat} (hden : 0 < den) (hden' : 0 < den')
    (h : num * den' = num' * den) : nearest? num den = nearest? num' den' := by
  have hscaled : ∀ (num den : Nat) {k : Nat}, 0 < k →
      nearest? (num * k) (den * k) = nearest? num den := by
    intro num den k hk
    simp only [nearest?, Nat.mul_div_mul_right _ _ hk, Nat.mul_right_comm den k,
      roundDiv_mul_right _ _ hk]
  rw [← hscaled num den hden', h, Nat.mul_comm den, hscaled num' den' hden]

theorem log2_mul_twoPow {m : Nat} (hm : m ≠ 0) (s : Nat) : (m * twoPow s).log2 = m.log2 + s := by
  have hne : m * twoPow s ≠ 0 := Nat.mul_ne_zero hm (Nat.ne_of_gt (twoPow_pos s))
  refine (Nat.log2_eq_iff hne).mpr ⟨?_, ?_⟩
  · rw [Nat.pow_add]
    exact Nat.mul_le_mul_right _ (Nat.log2_self_le hm)
  · rw [Nat.add_right_comm, Nat.pow_add]
    exact Nat.mul_lt_mul_of_pos_right Nat.lt_log2_self (twoPow_pos s)

/-- A size is the one nearest to itself. -/
theorem nearest?_units (x : Size) : nearest? x.units 1 = some x := by
  obtain ⟨mantissa, scale, hnormal⟩ := x
  obtain ⟨hhigh, hscale, hlow⟩ := hnormal
  have hlog : (mantissa * twoPow scale / 1).log2 - 52 = scale := by
    rw [Nat.div_one]
    rcases hlow with rfl | hlow
    · by_cases hzero : mantissa = 0
      · subst hzero
        decide
      · have hlt : (mantissa * twoPow 0).log2 < 53 := by
          rw [show mantissa * twoPow 0 = mantissa from Nat.mul_one mantissa]
          exact (Nat.log2_lt hzero).mpr hhigh
        omega
    · have hne : mantissa ≠ 0 := Nat.ne_of_gt (Nat.lt_of_lt_of_le (by decide) hlow)
      rw [log2_mul_twoPow hne, (Nat.log2_eq_iff hne).mpr ⟨hlow, hhigh⟩]
      omega
  have hround : roundDiv (mantissa * twoPow scale) (1 * twoPow scale) = mantissa := by
    rw [Nat.one_mul]
    exact roundDiv_mul_self _ (twoPow_pos scale)
  have hne : mantissa ≠ twoPow 53 := Nat.ne_of_lt hhigh
  simp only [nearest?, units, hlog, hround, if_neg hne]
  exact make?_mantissa_scale ⟨mantissa, scale, hhigh, hscale, hlow⟩

theorem units_lt (x : Size) : x.units < twoPow 1024 * twoPow 1074 := by
  obtain ⟨mantissa, scale, hhigh, hscale, -⟩ := x
  have hpow : twoPow scale ≤ twoPow 2045 := twoPow_le_twoPow hscale
  have hproduct : twoPow 53 * twoPow 2045 = twoPow 1024 * twoPow 1074 := by decide +kernel
  rw [← hproduct]
  exact Nat.mul_lt_mul_of_lt_of_le hhigh hpow (twoPow_pos 2045)

theorem eq_zero_of_units {x : Size} (h : x.units = 0) : x = zero := by
  obtain ⟨mantissa, scale, hhigh, hscale, hlow⟩ := x
  have hmantissa : mantissa = 0 :=
    (Nat.mul_eq_zero.mp h).resolve_right (Nat.ne_of_gt (Nat.two_pow_pos scale))
  subst hmantissa
  obtain rfl : scale = 0 := hlow.resolve_right (by decide)
  rfl

end Size

theorem ofRatio_congr (negative : Bool) {num den num' den' : Nat} (hden : 0 < den)
    (hden' : 0 < den') (h : num * den' = num' * den) :
    ofRatio negative num den = ofRatio negative num' den' := by
  have hnearest : ∀ unit, Size.nearest? (num * unit) den = Size.nearest? (num' * unit) den' := by
    intro unit
    refine Size.nearest?_congr hden hden' ?_
    rw [Nat.mul_right_comm, h, Nat.mul_right_comm]
  simp only [ofRatio, hnearest]

/-! ## decimal fractions -/

end Double

theorem digitCount_of_pos {n : Nat} (h : n ≠ 0) : digitCount n = digitCount (n / 10) + 1 := by
  rw [digitCount, if_neg h]

theorem digitCount_le_iff {n k : Nat} : digitCount n ≤ k ↔ n < tenPow k := by
  induction k generalizing n with
  | zero =>
    by_cases h : n = 0
    · subst h
      exact iff_of_true (by simp [digitCount]) (tenPow_pos 0)
    · rw [digitCount_of_pos h]
      exact iff_of_false (by omega) fun hlt => h (Nat.lt_one_iff.mp hlt)
  | succ k ih =>
    by_cases h : n = 0
    · subst h
      exact iff_of_true (by simp [digitCount]) (tenPow_pos _)
    · rw [digitCount_of_pos h, Nat.add_le_add_iff_right, ih, tenPow_succ,
        Nat.div_lt_iff_lt_mul (by decide)]

theorem digitCount_mul_tenPow {n : Nat} (h : n ≠ 0) (k : Nat) :
    digitCount (n * tenPow k) = digitCount n + k := by
  induction k with
  | zero => simp
  | succ k ih =>
    have hsucc : n * tenPow (k + 1) = n * tenPow k * 10 := (Nat.mul_assoc _ _ _).symm
    have hne : n * tenPow k * 10 ≠ 0 :=
      Nat.mul_ne_zero (Nat.mul_ne_zero h (tenPow_ne_zero k)) (by decide)
    rw [hsucc, digitCount_of_pos hne, Nat.mul_div_cancel _ (by decide), ih]
    rfl

namespace Double

theorem ofDecimal_shift (negative : Bool) (digits : Nat) (exponent : Int) (k : Nat) :
    ofDecimal ⟨negative, digits * tenPow k, exponent - k⟩ =
      ofDecimal ⟨negative, digits, exponent⟩ := by
  by_cases hzero : digits = 0
  · subst hzero
    rw [ofDecimal, ofDecimal, if_pos (.inl (Nat.zero_mul _)), if_pos (.inl rfl)]
  · have hmagnitude : Decimal.magnitude ⟨negative, digits * tenPow k, exponent - k⟩ =
        Decimal.magnitude ⟨negative, digits, exponent⟩ := by
      simp only [Decimal.magnitude, digitCount_mul_tenPow hzero]
      omega
    have hshifted : digits * tenPow k ≠ 0 := Nat.mul_ne_zero hzero (tenPow_ne_zero k)
    -- the powers on both sides come to the same exponent
    have hpowers : k + (exponent - k).toNat + (-exponent).toNat =
        exponent.toNat + (-(exponent - k)).toNat := by omega
    have hratio : digits * tenPow k * tenPow (exponent - k).toNat * tenPow (-exponent).toNat =
        digits * tenPow exponent.toNat * tenPow (-(exponent - k)).toNat := by
      rw [Nat.mul_assoc digits, Nat.mul_assoc digits, Nat.mul_assoc digits, ← tenPow_add,
        ← tenPow_add, hpowers, tenPow_add]
    simp only [ofDecimal, hmagnitude, hzero, hshifted]
    rw [ofRatio_congr negative (tenPow_pos _) (tenPow_pos _) hratio]

theorem nearest?_of_value {x : Size} {num den : Nat} (hden : 0 < den)
    (h : num * twoPow 1074 = x.units * den) : Size.nearest? (num * twoPow 1074) den = some x := by
  have hcross : x.units * den * 1 = x.units * den := Nat.mul_one _
  rw [h, Size.nearest?_congr hden Nat.one_pos hcross, Size.nearest?_units]

/-- No fraction with the value of a double is so far away that it is not computed. -/
theorem magnitude_of_value {x : Size} {d : Decimal} (hdigits : d.digits ≠ 0)
    (h : d.digits * tenPow d.exponent.toNat * twoPow 1074 =
      x.units * tenPow (-d.exponent).toNat) : -330 ≤ d.magnitude ∧ d.magnitude ≤ 310 := by
  have hsmall : twoPow 1074 < tenPow 330 := by decide +kernel
  have hlarge : twoPow 1024 < tenPow 310 := by decide +kernel
  have hlt := x.units_lt
  have hunit := twoPow_pos 1074
  generalize twoPow 1074 = unit at h hsmall hlt hunit
  generalize twoPow 1024 = bound at hlt hlarge
  obtain ⟨negative, digits, exponent⟩ := d
  dsimp only at hdigits h
  unfold Decimal.magnitude
  dsimp only
  refine ⟨Int.not_lt.mp fun hfar => ?_, Int.not_lt.mp fun hfar => ?_⟩
  · -- the digits do not reach up to the units
    have hbelow : digits < tenPow (digitCount digits) := digitCount_le_iff.mp (Nat.le_refl _)
    have hcount : digitCount digits + 330 ≤ (-exponent).toNat := by omega
    have hpow : tenPow (digitCount digits) * tenPow 330 ≤ tenPow (-exponent).toNat := by
      rw [← tenPow_add]
      exact Nat.pow_le_pow_right (by decide) hcount
    have hwhole : exponent.toNat = 0 := by omega
    have hunits : 0 < x.units := by
      refine Nat.pos_of_ne_zero fun hzero => ?_
      rw [hzero, Nat.zero_mul] at h
      exact Nat.mul_ne_zero (Nat.mul_ne_zero hdigits (tenPow_ne_zero _)) (Nat.ne_of_gt hunit) h
    have hproduct : digits * unit < tenPow (digitCount digits) * tenPow 330 :=
      Nat.mul_lt_mul_of_lt_of_lt hbelow hsmall
    have hone : tenPow 0 = 1 := rfl
    rw [hwhole, hone, Nat.mul_one] at h
    have hle : tenPow (-exponent).toNat ≤ x.units * tenPow (-exponent).toNat :=
      Nat.le_mul_of_pos_left _ hunits
    omega
  · have habove : tenPow (digitCount digits - 1) ≤ digits := by
      refine Nat.le_of_not_lt fun hlt => ?_
      have hcount := digitCount_le_iff.mpr hlt
      rw [digitCount_of_pos hdigits] at hcount
      omega
    have hcount : 310 + (-exponent).toNat ≤ digitCount digits - 1 + exponent.toNat := by
      rw [digitCount_of_pos hdigits] at hfar ⊢
      omega
    have hpow : tenPow 310 * tenPow (-exponent).toNat ≤ digits * tenPow exponent.toNat := by
      calc tenPow 310 * tenPow (-exponent).toNat
          = tenPow (310 + (-exponent).toNat) := (tenPow_add _ _).symm
        _ ≤ tenPow (digitCount digits - 1 + exponent.toNat) :=
          Nat.pow_le_pow_right (by decide) hcount
        _ = tenPow (digitCount digits - 1) * tenPow exponent.toNat := tenPow_add _ _
        _ ≤ digits * tenPow exponent.toNat := Nat.mul_le_mul_right _ habove
    have hbig : bound * unit * tenPow (-exponent).toNat ≤
        tenPow 310 * tenPow (-exponent).toNat * unit := by
      rw [Nat.mul_right_comm]
      exact Nat.mul_le_mul_right _ (Nat.mul_le_mul_right _ (Nat.le_of_lt hlarge))
    have hover : x.units * tenPow (-exponent).toNat < bound * unit * tenPow (-exponent).toNat :=
      Nat.mul_lt_mul_of_pos_right hlt (tenPow_pos _)
    have hscaled := Nat.mul_le_mul_right unit hpow
    omega

/-- A fraction that has the value of a double is read as this double, with its own sign. -/
theorem ofDecimal_of_value {x : Size} {d : Decimal}
    (h : d.digits * tenPow d.exponent.toNat * twoPow 1074 =
      x.units * tenPow (-d.exponent).toNat) : ofDecimal d = .finite d.negative x := by
  by_cases hzero : d.digits = 0
  · have hunits : x.units = 0 := by
      rw [hzero, Nat.zero_mul, Nat.zero_mul] at h
      exact (Nat.mul_eq_zero.mp h.symm).resolve_right (tenPow_ne_zero _)
    rw [Size.eq_zero_of_units hunits, ofDecimal, if_pos (.inl hzero)]
  · obtain ⟨hlow, hhigh⟩ := magnitude_of_value hzero h
    rw [ofDecimal, if_neg (by omega), if_neg (by omega), ofRatio,
      nearest?_of_value (tenPow_pos _) h]
    rfl

/-! ## shortest digits -/

namespace Size

theorem ofDecimal_exactDecimal (x : Size) : ofDecimal x.exactDecimal = .finite false x := by
  have hvalue : ∀ n, x.units * Nat.pow 5 n * tenPow 0 * twoPow n = x.units * tenPow n := by
    intro n
    have hone : tenPow 0 = 1 := rfl
    rw [hone, Nat.mul_one, Nat.mul_assoc, fivePow_mul_twoPow]
  exact ofDecimal_of_value (hvalue 1074)

/-- The shortest digits are read as the double. -/
theorem ofDecimal_shortest (x : Size) :
    x.shortest.negative = false ∧ ofDecimal x.shortest = .finite false x := by
  unfold shortest
  dsimp only
  cases h : ((List.range 17).map fun n : Nat => x.decimalMagnitude - n - 1).findSome? x.onGrid? with
  | none => exact ⟨rfl, ofDecimal_exactDecimal x⟩
  | some d =>
    obtain ⟨exponent, -, hgrid⟩ := List.exists_of_findSome?_eq_some h
    have hback := readBack_onGrid? hgrid
    have hnegative : d.negative = false := by
      obtain ⟨_, -, rfl⟩ := List.mem_map.mp (List.mem_of_find?_eq_some hgrid)
      rfl
    have hread : ofDecimal d = .finite d.negative x := by simpa [readBack] using hback
    exact ⟨hnegative, hnegative ▸ hread⟩

end Size

end Double

end AnnotatedScheme
