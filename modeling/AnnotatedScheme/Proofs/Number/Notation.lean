import AnnotatedScheme.Proofs.Number.Numeral

/-!
# Notations of doubles are read back

The notation of a fraction is the text of a numeral whose digits have, with or without zeros behind
them, the value of the fraction (`Notation.exists_numeral_ofDecimal`). So the notation of a double,
which has its shortest digits, is read as the double (`Double.exists_numeral_ofDouble`).
-/

namespace AnnotatedScheme

/-! ## notations -/

namespace Notation

open Numeral (fractionText)

variable {digits : List Char}

/-- Positional notation: digits on both sides of the point, which have the value of the digits with
zeros behind them. -/
theorem positional_eq_point (h : IsDigits digits) (hne : digits ≠ []) (point : Int) :
    ∃ whole fraction : List Char, ∃ k : Nat, positional digits point = whole ++ '.' :: fraction ∧
      (IsDigits whole ∧ whole ≠ [] ∧ IsDigits fraction) ∧
      digitsValue (whole ++ fraction) = digitsValue digits * tenPow k ∧
      -(fraction.length : Int) = point - digits.length - k := by
  have hone : tenPow 0 = 1 := rfl
  have hlength : 0 < digits.length := List.length_pos_iff.mpr hne
  unfold positional
  split
  · refine ⟨['0'], List.replicate (-point).toNat '0' ++ digits, 0, rfl, ⟨?_, ?_, ?_⟩, ?_, ?_⟩
    · exact isDigits_replicate 1
    · exact List.cons_ne_nil _ _
    · exact List.forall_mem_append.mpr ⟨isDigits_replicate _, h⟩
    · have hzeros : ['0'] ++ (List.replicate (-point).toNat '0' ++ digits) =
          List.replicate ((-point).toNat + 1) '0' ++ digits := rfl
      rw [hzeros, digitsValue_append, digitsValue_replicate_zero, Nat.zero_mul, Nat.zero_add, hone,
        Nat.mul_one]
    · rw [List.length_append, List.length_replicate]
      omega
  · split
    · have hvalue : ∀ n, digitsValue (digits ++ List.replicate n '0') =
          digitsValue digits * tenPow n := by
        intro n
        rw [digitsValue_append, digitsValue_replicate_zero, List.length_replicate, Nat.add_zero]
      refine ⟨digits ++ List.replicate (point.toNat - digits.length) '0', ['0'],
        point.toNat - digits.length + 1, rfl, ⟨?_, ?_, ?_⟩, ?_, ?_⟩
      · exact List.forall_mem_append.mpr ⟨h, isDigits_replicate _⟩
      · exact List.append_ne_nil_of_left_ne_nil hne _
      · exact isDigits_replicate 1
      · rw [List.append_assoc, ← hvalue, List.replicate_succ']
      · rw [List.length_singleton]
        omega
    · refine ⟨digits.take point.toNat, digits.drop point.toNat, 0, rfl, ⟨?_, ?_, ?_⟩, ?_, ?_⟩
      · exact fun c hc => h c (List.mem_of_mem_take hc)
      · intro hnil
        have hzero := congrArg List.length hnil
        rw [List.length_take, List.length_nil] at hzero
        omega
      · exact fun c hc => h c (List.mem_of_mem_drop hc)
      · rw [List.take_append_drop, hone, Nat.mul_one]
      · rw [List.length_drop]
        omega

/-- Scientific notation: the digits, with a point behind the first one if there are more. -/
theorem scientific_eq_point (h : IsDigits digits) (hne : digits ≠ []) (exponent : Int) :
    ∃ whole fraction, scientific digits exponent =
        whole ++ (fractionText fraction ++ exponentText exponent) ∧
      (IsDigits whole ∧ whole ≠ [] ∧ ∀ ds, fraction = some ds → IsDigits ds) ∧
      whole ++ fraction.getD [] = digits ∧
      ((fraction.getD []).length : Int) = digits.length - 1 := by
  obtain ⟨c, rest, rfl⟩ := List.exists_cons_of_ne_nil hne
  rw [IsDigits, List.forall_mem_cons] at h
  have hc : IsDigits [c] := List.forall_mem_singleton.mpr h.1
  unfold scientific
  cases rest with
  | nil => exact ⟨[c], none, rfl, ⟨hc, List.cons_ne_nil _ _, by simp⟩, rfl, rfl⟩
  | cons d rest =>
    refine ⟨[c], some (d :: rest), ?_, ⟨hc, List.cons_ne_nil _ _, ?_⟩, rfl, ?_⟩
    · simp [fractionText]
    · intro ds hds
      exact Option.some.inj hds ▸ h.2
    · simp

/-- the digits of an exponent, at least two of them -/
def exponentDigits (exponent : Int) : List Char :=
  List.replicate (2 - (digitText exponent.natAbs).length) '0' ++ digitText exponent.natAbs

theorem isDigits_exponentDigits (exponent : Int) : IsDigits (exponentDigits exponent) :=
  List.forall_mem_append.mpr ⟨isDigits_replicate _, isDigits_digitText _⟩

theorem digitsValue_exponentDigits (exponent : Int) :
    digitsValue (exponentDigits exponent) = exponent.natAbs := by
  rw [exponentDigits, digitsValue_append, digitsValue_replicate_zero, Nat.zero_mul, Nat.zero_add,
    digitsValue_digitText]

theorem exponentText_eq (exponent : Int) :
    exponentText exponent =
      Numeral.exponentText (some (decide (exponent < 0), exponentDigits exponent)) := by
  by_cases h : exponent < 0
  · simp [exponentText, Numeral.exponentText, exponentDigits, h]
  · simp [exponentText, Numeral.exponentText, exponentDigits, h]

/-- The notation of a fraction is the text of a numeral that is read as a fraction of its value. -/
theorem exists_numeral_ofDecimal (negative : Bool) (d : Decimal) :
    ∃ x : Numeral, signed negative (ofDecimal d) = x.text ∧ x.IsWritten ∧ x.isPlain = false ∧
      ∃ k : Nat, x.toDecimal =
        ⟨negative, d.reduce.digits * tenPow k, d.reduce.exponent - k⟩ := by
  have hdigits := isDigits_digitText d.reduce.digits
  have hne : digitText d.reduce.digits ≠ [] := Nat.toDigits_ne_nil
  have hvalue := digitsValue_digitText d.reduce.digits
  unfold ofDecimal
  dsimp only
  split
  · obtain ⟨whole, fraction, k, htext, ⟨hwhole, hnonempty, hfraction⟩, hsame, hlength⟩ :=
      positional_eq_point hdigits hne
        ((digitText d.reduce.digits).length + d.reduce.exponent)
    refine ⟨⟨negative, whole, some fraction, none⟩, ?_, ⟨hwhole, hnonempty, ?_, nofun⟩, rfl, k, ?_⟩
    · rw [htext]
      simp [Numeral.text, fractionText, Numeral.exponentText]
    · intro ds hds
      exact Option.some.inj hds ▸ hfraction
    · have hexponent : (0 : Int) - fraction.length = d.reduce.exponent - k := by omega
      show Decimal.mk negative (digitsValue (whole ++ fraction)) (0 - fraction.length) = _
      rw [hsame, hvalue, hexponent]
  · obtain ⟨whole, fraction, htext, ⟨hwhole, hnonempty, hfraction⟩, hsame, hlength⟩ :=
      scientific_eq_point hdigits hne
        ((digitText d.reduce.digits).length + d.reduce.exponent - 1)
    generalize hexp : ((digitText d.reduce.digits).length + d.reduce.exponent - 1 : Int) = exponent
      at htext hlength
    refine ⟨⟨negative, whole, fraction, some (decide (exponent < 0), exponentDigits exponent)⟩, ?_,
      ⟨hwhole, hnonempty, hfraction, ?_⟩, ?_, 0, ?_⟩
    · rw [htext, exponentText_eq]
      rfl
    · intro sign ds hds
      obtain ⟨-, rfl⟩ := Prod.mk.inj (Option.some.inj hds)
      refine ⟨isDigits_exponentDigits exponent, fun hnil => ?_⟩
      exact absurd (List.append_eq_nil_iff.mp hnil).2 Nat.toDigits_ne_nil
    · simp [Numeral.isPlain]
    · have hsize := digitsValue_exponentDigits exponent
      have hread : Numeral.exponentValue
          ⟨negative, whole, fraction, some (decide (exponent < 0), exponentDigits exponent)⟩ =
            exponent := by
        by_cases hsign : exponent < 0
        · simp only [Numeral.exponentValue, hsign, decide_true, hsize]
          omega
        · simp only [Numeral.exponentValue, hsign, decide_false, hsize]
          omega
      have hexponent : exponent - (fraction.getD []).length = d.reduce.exponent - (0 : Nat) := by
        omega
      have hone : tenPow 0 = 1 := rfl
      simp only [Numeral.toDecimal, hread, hsame, hvalue, hexponent, hone, Nat.mul_one]

end Notation

/-! ## the doubles of notations -/

namespace Double

/-- The sign of a fraction is the sign of its double, and plays no part in its size. -/
theorem exists_size?_of_decimal (digits : Nat) (exponent : Int) :
    ∃ size? : Option Size, ∀ negative, ofDecimal ⟨negative, digits, exponent⟩ =
      ofSize? negative size? := by
  by_cases hlow : digits = 0 ∨ Decimal.magnitude ⟨false, digits, exponent⟩ < -330
  · exact ⟨some .zero, fun negative => if_pos hlow⟩
  by_cases hhigh : 310 < Decimal.magnitude ⟨false, digits, exponent⟩
  · exact ⟨none, fun negative => (if_neg hlow).trans (if_pos hhigh)⟩
  · refine ⟨Size.nearest? (digits * tenPow exponent.toNat * twoPow 1074)
      (tenPow (-exponent).toNat), fun negative => ?_⟩
    have hlow' : ¬(digits = 0 ∨ Decimal.magnitude ⟨negative, digits, exponent⟩ < -330) := hlow
    have hhigh' : ¬310 < Decimal.magnitude ⟨negative, digits, exponent⟩ := hhigh
    rw [ofDecimal, if_neg hlow', if_neg hhigh', ofRatio]

theorem ofDecimal_negative {digits : Nat} {exponent : Int} {sign : Bool} {x : Size}
    (h : ofDecimal ⟨sign, digits, exponent⟩ = .finite sign x) (negative : Bool) :
    ofDecimal ⟨negative, digits, exponent⟩ = .finite negative x := by
  obtain ⟨size?, hsize⟩ := exists_size?_of_decimal digits exponent
  rw [hsize] at h ⊢
  cases size? with
  | none => cases h
  | some y =>
    obtain ⟨-, rfl⟩ := Double.finite.inj h
    rfl

theorem isSome_toInt?_finite (negative : Bool) (x : Size) :
    (finite negative x).toInt?.isSome = decide (x.units % twoPow 1074 = 0) := by
  unfold toInt?
  dsimp only
  split
  · rename_i h
    exact (decide_eq_true h).symm
  · rename_i h
    exact (decide_eq_false h).symm

/-- Whether a fraction is read as a whole number does not depend on its sign. -/
theorem isSome_toInt?_ofDecimal (digits : Nat) (exponent : Int) (negative : Bool) :
    (ofDecimal ⟨negative, digits, exponent⟩).toInt?.isSome =
      (ofDecimal ⟨false, digits, exponent⟩).toInt?.isSome := by
  obtain ⟨size?, hsize⟩ := exists_size?_of_decimal digits exponent
  rw [hsize, hsize]
  cases size? with
  | none => rfl
  | some x =>
    show (finite negative x).toInt?.isSome = (finite false x).toInt?.isSome
    rw [isSome_toInt?_finite, isSome_toInt?_finite]

theorem ofDecimal_reduce (d : Decimal) :
    ofDecimal ⟨d.negative, d.reduce.digits, d.reduce.exponent⟩ = ofDecimal d := by
  fun_induction Decimal.reduce d with
  | case1 d h ih =>
    rw [ih]
    have hdigits : d.digits / 10 * tenPow 1 = d.digits :=
      Nat.div_mul_cancel (Nat.dvd_of_mod_eq_zero h.2)
    have hshift := ofDecimal_shift d.negative (d.digits / 10) (d.exponent + 1) 1
    rw [hdigits, Int.natCast_one, Int.add_sub_cancel] at hshift
    exact hshift.symm
  | case2 d h => rfl

/-- The notation of a double other than zero is read as the double. -/
theorem exists_numeral_ofDouble (negative : Bool) {x : Size} (h : x.units ≠ 0) :
    ∃ n : Numeral, Notation.ofDouble (.finite negative x) = n.text ∧ n.IsWritten ∧
      n.isPlain = false ∧ n.toDouble = .finite negative x := by
  obtain ⟨n, htext, hwritten, hplain, k, hvalue⟩ :=
    Notation.exists_numeral_ofDecimal negative x.shortest
  refine ⟨n, ?_, hwritten, hplain, ?_⟩
  · rw [Notation.ofDouble, if_neg h, htext]
  · have hshortest := x.ofDecimal_shortest.2
    rw [← ofDecimal_reduce, x.ofDecimal_shortest.1] at hshortest
    rw [Numeral.toDouble, hvalue, ofDecimal_shift]
    exact ofDecimal_negative hshortest negative

end Double

end AnnotatedScheme
