import AnnotatedScheme.Number.Basic
import AnnotatedScheme.Proofs.Number.Notation

/-!
# Written numbers are read back

A number is read back as `Number.exact`, which is the number itself, but the whole number for a
double that is whole (`Number.ofText?_ofNumber`). Two numbers are the same exact number just if they
have the same value (`Number.exact_eq_exact_iff`).
-/

namespace AnnotatedScheme

/-! ## whole numbers -/

namespace Notation

theorem ofInt_eq_text (value : Int) :
    ofInt value = Numeral.text ⟨decide (value < 0), digitText value.natAbs, none, none⟩ := by
  simp [ofInt, Numeral.text, Numeral.fractionText, Numeral.exponentText]

theorem isWritten_ofInt (value : Int) :
    Numeral.IsWritten ⟨decide (value < 0), digitText value.natAbs, none, none⟩ :=
  ⟨isDigits_digitText _, Nat.toDigits_ne_nil, nofun, nofun⟩

theorem length_digitText {n : Nat} (h : n ≠ 0) : (digitText n).length = digitCount n := by
  induction n using Nat.strongRecOn with
  | ind n ih =>
    rw [digitCount_of_pos h, digitText]
    by_cases hlt : n < 10
    · have hzero : n / 10 = 0 := Nat.div_eq_of_lt hlt
      rw [Nat.toDigits_of_lt_base hlt, hzero, digitCount, if_pos rfl]
      rfl
    · have hle : 10 ≤ n := Nat.not_lt.mp hlt
      have hshorter := ih (n / 10) (Nat.div_lt_self (by omega) (by decide)) (by omega)
      rw [Nat.toDigits_of_base_le (by decide) hle, List.length_append, ← hshorter, digitText,
        List.length_singleton]

end Notation

namespace Numeral

theorem toDecimal_plain (negative : Bool) (digits : List Char) :
    toDecimal ⟨negative, digits, none, none⟩ = ⟨negative, digitsValue digits, 0⟩ := by
  simp [toDecimal, exponentValue]

theorem natAbs_toInt (x : Numeral) : x.toInt.natAbs = digitsValue x.whole := by
  unfold toInt
  split <;> omega

end Numeral

namespace Number

/-! ## reading -/

/-- the number, or the whole number that a double is -/
def exact : Number → Number
  | .int value => .int value
  | .double value =>
    match value.toInt? with
    | some whole => .int whole
    | none => .double value

def isInfinite : Number → Bool
  | .double (.infinite _) => true
  | _ => false

theorem exact_of_whole {d : Double} {whole : Int} (h : d.toInt? = some whole) :
    exact (.double d) = .int whole := by
  rw [exact, h]

theorem exact_of_not_whole {d : Double} (h : d.toInt? = none) : exact (.double d) = .double d := by
  rw [exact, h]

theorem exact_exact (x : Number) : x.exact.exact = x.exact := by
  cases x with
  | int => rfl
  | double d =>
    cases h : d.toInt? with
    | some whole => rw [exact_of_whole h, exact]
    | none => rw [exact_of_not_whole h, exact_of_not_whole h]

theorem isInfinite_exact (x : Number) : x.exact.isInfinite = x.isInfinite := by
  cases x with
  | int => rfl
  | double d =>
    cases h : d.toInt? with
    | some whole =>
      rw [exact_of_whole h]
      cases d with
      | finite => rfl
      | infinite | nan => cases h
    | none => rw [exact_of_not_whole h]

theorem ofNumber_exact (x : Number) : Notation.ofNumber x.exact = Notation.ofNumber x := by
  cases x with
  | int => rfl
  | double d =>
    cases h : d.toInt? with
    | some whole => rw [exact_of_whole h, Notation.ofNumber, Notation.ofNumber, h]
    | none => rw [exact_of_not_whole h]

/-- the numbers that the reader makes: whole numbers with a finite double, and doubles -/
def InRange : Number → Prop
  | .int value => (Double.ofDecimal ⟨false, value.natAbs, 0⟩).toInt?.isSome
  | .double value => value ≠ .nan

/-- so whole numbers of the reader are not too long to be written -/
theorem InRange.length_le {value : Int} (h : (Number.int value).InRange) :
    (Notation.digitText value.natAbs).length ≤ digitLimit := by
  by_cases hzero : value.natAbs = 0
  · rw [hzero]
    decide
  · rw [Notation.length_digitText hzero]
    refine Nat.le_trans (m := 310) (Nat.le_of_not_lt fun hfar => ?_) (by decide)
    have hmagnitude : Decimal.magnitude ⟨false, value.natAbs, 0⟩ = digitCount value.natAbs :=
      Int.add_zero _
    rw [InRange, Double.ofDecimal, hmagnitude, if_neg (not_or.mpr ⟨hzero, by omega⟩),
      if_pos (by omega)] at h
    cases h

theorem inRange_of_ofNumeral {n : Numeral} {x : Number} (h : ofNumeral n = .ok x) :
    x.InRange := by
  unfold ofNumeral at h
  split at h
  · rename_i hwhole
    obtain ⟨hplain, hsome⟩ := hwhole
    split at h
    case isFalse => cases h
    obtain rfl := Except.ok.inj h
    rw [Numeral.isPlain, Bool.and_eq_true, Option.isNone_iff_eq_none, Option.isNone_iff_eq_none]
      at hplain
    obtain ⟨negative, digits, fraction, exponent⟩ := n
    obtain ⟨rfl, rfl⟩ := hplain
    rw [Numeral.toDouble, Numeral.toDecimal_plain, Double.isSome_toInt?_ofDecimal] at hsome
    rw [InRange, Numeral.natAbs_toInt]
    exact hsome
  · obtain rfl := Except.ok.inj h
    obtain ⟨size?, hsize⟩ := Double.exists_size?_of_decimal n.toDecimal.digits n.toDecimal.exponent
    show Double.ofDecimal n.toDecimal ≠ .nan
    rw [hsize n.toDecimal.negative]
    cases size? <;> exact Double.noConfusion

theorem inRange_of_ofText? {text : List Char} {x : Number} (h : ofText? text = some (.ok x)) :
    x.InRange := by
  obtain ⟨n, -, hn⟩ := Option.map_eq_some_iff.mp h
  exact inRange_of_ofNumeral hn

/-- A plain numeral whose double is finite is read as the whole number. -/
theorem ofNumeral_ofInt {value : Int} (h : (Number.int value).InRange) :
    ofNumeral ⟨decide (value < 0), Notation.digitText value.natAbs, none, none⟩ =
      .ok (.int value) := by
  have hsome : (Numeral.toDouble
      ⟨decide (value < 0), Notation.digitText value.natAbs, none, none⟩).toInt?.isSome := by
    rw [Numeral.toDouble, Numeral.toDecimal_plain, digitsValue_digitText,
      Double.isSome_toInt?_ofDecimal]
    exact h
  have hvalue : Numeral.toInt ⟨decide (value < 0), Notation.digitText value.natAbs, none, none⟩ =
      value := by
    simp only [Numeral.toInt, digitsValue_digitText, decide_eq_true_eq]
    split <;> omega
  rw [ofNumeral, if_pos ⟨rfl, hsome⟩, if_pos h.length_le, hvalue]

theorem inRange_of_toInt? {d : Double} {whole : Int} (h : d.toInt? = some whole) :
    (Number.int whole).InRange := by
  cases d with
  | finite negative x =>
    unfold Double.toInt? at h
    dsimp only at h
    split at h
    · rename_i hunits
      have habs : whole.natAbs = x.units / twoPow 1074 := by
        obtain rfl := Option.some.inj h
        generalize x.units / twoPow 1074 = size
        split <;> omega
      have hcancel : ∀ unit, x.units % unit = 0 →
          x.units / unit * tenPow 0 * unit = x.units * tenPow 0 := by
        intro unit hunit
        have hone : tenPow 0 = 1 := rfl
        rw [hone, Nat.mul_one, Nat.mul_one, Nat.div_mul_cancel (Nat.dvd_of_mod_eq_zero hunit)]
      have hread : Double.ofDecimal ⟨false, x.units / twoPow 1074, 0⟩ = .finite false x :=
        Double.ofDecimal_of_value (hcancel _ hunits)
      show (Double.ofDecimal ⟨false, whole.natAbs, 0⟩).toInt?.isSome
      rw [habs, hread, Double.isSome_toInt?_finite]
      exact decide_eq_true hunits
    · cases h
  | infinite => cases h
  | nan => cases h

/-- The notation of a number is that of a numeral, which is read as the exact number. -/
theorem exists_numeral {x : Number} (h : x.InRange) (hfinite : x.isInfinite = false) :
    ∃ n : Numeral, Notation.ofNumber x = n.text ∧ n.IsWritten ∧ ofNumeral n = .ok x.exact := by
  cases x with
  | int value =>
    exact ⟨_, Notation.ofInt_eq_text value, Notation.isWritten_ofInt value, ofNumeral_ofInt h⟩
  | double d =>
    cases hwhole : d.toInt? with
    | some whole =>
      refine ⟨_, ?_, Notation.isWritten_ofInt whole, ?_⟩
      · rw [Notation.ofNumber, hwhole]
        exact Notation.ofInt_eq_text whole
      · rw [exact_of_whole hwhole]
        exact ofNumeral_ofInt (inRange_of_toInt? hwhole)
    | none =>
      match d with
      | .infinite _ => cases hfinite
      | .nan => exact absurd rfl h
      | .finite negative size =>
        have hunits : size.units ≠ 0 := by
          intro hzero
          have hsome := Double.isSome_toInt?_finite negative size
          rw [hwhole, hzero, Nat.zero_mod] at hsome
          cases hsome
        obtain ⟨n, htext, hwritten, hplain, hdouble⟩ :=
          Double.exists_numeral_ofDouble negative hunits
        refine ⟨n, ?_, hwritten, ?_⟩
        · rw [Notation.ofNumber, hwhole, htext]
        · rw [ofNumeral, if_neg (by simp [hplain]), hdouble,
            exact_of_not_whole hwhole]

/-- A number is read back as the exact number, if it is not infinite. -/
theorem ofText?_ofNumber {x : Number} (h : x.InRange) (hfinite : x.isInfinite = false) :
    ofText? (Notation.ofNumber x) = some (.ok x.exact) := by
  obtain ⟨n, htext, hwritten, hexact⟩ := exists_numeral h hfinite
  rw [ofText?, htext, hwritten.ofText?_text, Option.map_some, hexact]

/-! ## values -/

/-- the value of a number, in units of `2^-1074` -/
def units? : Number → Option Int
  | .int value => some (value * twoPow 1074)
  | .double (.finite negative size) => some (if negative then -size.units else size.units)
  | .double _ => none

/-- the exact number of a value -/
def ofUnits (units : Int) : Number :=
  if units % twoPow 1074 = 0 then .int (units / twoPow 1074)
  else .double (Double.ofSize? (units < 0) (Double.Size.nearest? units.natAbs 1))

theorem exact_eq_ofUnits {x : Number} {units : Int} (h : x.units? = some units) :
    x.exact = ofUnits units := by
  have hunit := twoPow_pos 1074
  match x with
  | .int value =>
    obtain rfl := Option.some.inj h
    rw [exact, ofUnits, if_pos (Int.mul_emod_left _ _), Int.mul_ediv_cancel _ (by omega)]
  | .double (.finite negative size) =>
    obtain rfl := Option.some.inj h
    have hnearest := size.nearest?_units
    unfold exact Double.toInt? ofUnits
    dsimp only
    generalize twoPow 1074 = unit at hunit
    generalize size.units = units at hnearest
    by_cases hwhole : units % unit = 0
    · obtain ⟨whole, rfl⟩ := Nat.dvd_of_mod_eq_zero hwhole
      have hsigned :
          (if negative = true then -((unit * whole : Nat) : Int) else (unit * whole : Nat)) =
            (if negative = true then -(whole : Int) else whole) * unit := by
        rw [Int.natCast_mul, Int.mul_comm]
        split
        · exact (Int.neg_mul _ _).symm
        · rfl
      rw [if_pos hwhole, hsigned, if_pos (Int.mul_emod_left _ _),
        Int.mul_ediv_cancel _ (by omega), Nat.mul_div_cancel_left _ hunit]
    · have hpos : units ≠ 0 := by
        rintro rfl
        exact hwhole (Nat.zero_mod unit)
      have hmod : ¬(if negative = true then -(units : Int) else units) % unit = 0 := by
        intro hzero
        have hdvd := Int.dvd_of_emod_eq_zero hzero
        refine hwhole (Nat.mod_eq_zero_of_dvd (Int.natCast_dvd_natCast.mp ?_))
        cases negative with
        | true => exact (Int.dvd_neg.mp hdvd)
        | false => exact hdvd
      rw [if_neg hwhole, if_neg hmod]
      cases negative with
      | true =>
        have hsign : decide (-(units : Int) < 0) = true := decide_eq_true (by omega)
        simp only [if_true, hsign, Int.natAbs_neg, Int.natAbs_natCast, hnearest, Double.ofSize?]
      | false =>
        have hsign : decide ((units : Int) < 0) = false := decide_eq_false (by omega)
        simp only [Bool.false_eq_true, if_false, hsign, Int.natAbs_natCast, hnearest,
          Double.ofSize?]
  | .double (.infinite _) | .double .nan => cases h

theorem units?_exact (x : Number) : x.exact.units? = x.units? := by
  match x with
  | .int value => rfl
  | .double (.infinite _) | .double .nan => rfl
  | .double (.finite negative size) =>
    unfold exact Double.toInt?
    dsimp only
    by_cases hwhole : size.units % twoPow 1074 = 0
    · rw [if_pos hwhole]
      show some ((if negative = true then -((size.units / twoPow 1074 : Nat) : Int)
        else (size.units / twoPow 1074 : Nat)) * twoPow 1074) = some _
      have hcancel := Nat.div_mul_cancel (Nat.dvd_of_mod_eq_zero hwhole)
      generalize twoPow 1074 = unit at hcancel
      cases negative with
      | true => simp only [if_true, Int.neg_mul, ← Int.natCast_mul, hcancel]
      | false => simp only [Bool.false_eq_true, if_false, ← Int.natCast_mul, hcancel]
    · rw [if_neg hwhole]

/-- Numbers with a value are the same exact number just if they have the same value. -/
theorem exact_eq_exact_iff {x y : Number} (h : x.units?.isSome) :
    x.exact = y.exact ↔ x.units? = y.units? := by
  obtain ⟨units, hx⟩ := Option.isSome_iff_exists.mp h
  refine ⟨fun heq => ?_, fun heq => ?_⟩
  · rw [← units?_exact x, heq, units?_exact]
  · rw [exact_eq_ofUnits hx, exact_eq_ofUnits (heq ▸ hx)]

end Number

end AnnotatedScheme
