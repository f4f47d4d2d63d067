import AnnotatedScheme.Number.Notation
import AnnotatedScheme.Number.Numeral
import AnnotatedScheme.Proofs.Number.Double
import Mathlib.Data.List.Induction
import Mathlib.Data.List.TakeDrop

/-!
# Written numerals are read back

`Numeral.text` is the text of a numeral in the digits that numbers are written with. It is taken
apart into the same numeral (`Numeral.IsWritten.ofText?_text`).
-/

namespace AnnotatedScheme

/-! ## digits -/

theorem digitValue?_of_isDigit {c : Char} (h : c.isDigit = true) :
    digitValue? c = some (c.toNat - 48) := by
  simp only [Char.isDigit, Bool.and_eq_true, decide_eq_true_eq] at h
  have hlow : 48 ≤ c.toNat := h.1
  have hhigh : c.toNat ≤ 57 := h.2
  have hfind :
      digitZeros.find? (fun start => start ≤ c.toNat && c.toNat < start + 10) = some 48 := by
    rw [digitZeros, List.find?_cons_of_pos]
    simp only [Bool.and_eq_true, decide_eq_true_eq]
    omega
  rw [digitValue?, hfind]
  rfl

/-- the digits that numbers are written with -/
def IsDigits (text : List Char) : Prop := ∀ c ∈ text, c.isDigit = true

theorem isDigits_replicate (n : Nat) : IsDigits (List.replicate n '0') := by
  intro c hc
  rw [List.eq_of_mem_replicate hc]
  decide

theorem isDigits_digitText (n : Nat) : IsDigits (Notation.digitText n) :=
  fun _ hc => Nat.isDigit_of_mem_toDigits (by decide) (by decide) hc

theorem isDecimalDigit_of_isDigit {c : Char} (h : c.isDigit = true) : isDecimalDigit c = true := by
  rw [isDecimalDigit, digitValue?_of_isDigit h]
  rfl

theorem IsDigits.isDecimalDigit {text : List Char} (h : IsDigits text) :
    ∀ c ∈ text, isDecimalDigit c = true :=
  fun c hc => isDecimalDigit_of_isDigit (h c hc)

theorem digitsValue_append (front back : List Char) :
    digitsValue (front ++ back) = digitsValue front * tenPow back.length + digitsValue back := by
  induction back using List.reverseRecOn with
  | nil => simp [digitsValue]
  | append_singleton back c ih =>
    rw [← List.append_assoc, digitsValue_append_singleton, digitsValue_append_singleton, ih,
      List.length_append, List.length_singleton, tenPow_succ, Nat.mul_add, ← Nat.mul_assoc,
      ← Nat.mul_assoc, Nat.mul_comm 10 (digitsValue front), Nat.mul_right_comm, Nat.add_assoc]

theorem digitsValue_replicate_zero (n : Nat) : digitsValue (List.replicate n '0') = 0 := by
  induction n with
  | zero => rfl
  | succ n ih => rw [List.replicate_succ', digitsValue_append_singleton, ih]; decide

theorem digitsValue_digitText (n : Nat) : digitsValue (Notation.digitText n) = n := by
  have hfold : ∀ (text : List Char) (value : Nat), IsDigits text →
      text.foldl (fun value c => 10 * value + (digitValue? c).getD 0) value =
        Nat.ofDigitChars 10 text value := by
    intro text
    induction text with
    | nil => exact fun _ _ => rfl
    | cons c rest ih =>
      intro value h
      rw [IsDigits, List.forall_mem_cons] at h
      rw [List.foldl_cons, ih _ h.2, digitValue?_of_isDigit h.1]
      rfl
  rw [digitsValue, hfold _ 0 (isDigits_digitText n)]
  exact Nat.ofDigitChars_toDigits (by decide) (by decide)

/-! ## numerals -/

namespace Numeral

def fractionText : Option (List Char) → List Char
  | some digits => '.' :: digits
  | none => []

def exponentText : Option (Bool × List Char) → List Char
  | some (negative, digits) => 'e' :: (if negative then '-' else '+') :: digits
  | none => []

def text (x : Numeral) : List Char :=
  Notation.signed x.negative (x.whole ++ (fractionText x.fraction ++ exponentText x.exponent))

/-- the numerals that are written: digits in front of the point, and in the exponent if there is
one -/
structure IsWritten (x : Numeral) : Prop where
  whole : IsDigits x.whole
  nonempty : x.whole ≠ []
  fraction : ∀ digits, x.fraction = some digits → IsDigits digits
  exponent : ∀ negative digits, x.exponent = some (negative, digits) →
    IsDigits digits ∧ digits ≠ []

theorem splitDigits_append {digits rest : List Char} (h : ∀ c ∈ digits, isDecimalDigit c = true)
    (hrest : ∀ c ∈ rest.head?, isDecimalDigit c = false) :
    splitDigits (digits ++ rest) = (digits, rest) := by
  rw [splitDigits, List.span_eq_takeWhile_dropWhile, List.takeWhile_append_of_pos h,
    List.dropWhile_append_of_pos h]
  cases rest with
  | nil => simp
  | cons c rest =>
    have hc := hrest c rfl
    rw [List.takeWhile_cons_of_neg (by simp [hc]), List.dropWhile_cons_of_neg (by simp [hc]),
      List.append_nil]

theorem splitSign_signed (negative : Bool) {text : List Char}
    (h : ∀ c ∈ text.head?, isDecimalDigit c = true) :
    splitSign (Notation.signed negative text) = (negative, text) := by
  cases negative with
  | true => rfl
  | false =>
    cases text with
    | nil => rfl
    | cons c rest =>
      have hc := h c rfl
      show splitSign (c :: rest) = _
      unfold splitSign
      split
      · rename_i heq
        obtain ⟨rfl, -⟩ := List.cons.inj heq
        exact absurd hc (by decide)
      · rename_i heq
        obtain ⟨rfl, -⟩ := List.cons.inj heq
        exact absurd hc (by decide)
      · rfl

/-- a sign and digits are a plain numeral -/
theorem ofText?_of_digits {text digits : List Char} {negative : Bool}
    (hsign : splitSign text = (negative, digits)) (hne : digits ≠ [])
    (hdigits : ∀ c ∈ digits, isDecimalDigit c = true) :
    ofText? text = some ⟨negative, digits, none, none⟩ := by
  have hsplit : splitDigits (digits ++ []) = (digits, []) :=
    splitDigits_append hdigits fun _ hc => absurd hc (by simp)
  rw [List.append_nil] at hsplit
  have hfraction : splitFraction [] = (none, []) := rfl
  unfold ofText?
  simp only [hsign, hsplit, hfraction, hne, false_and, if_false, if_true]

theorem length_splitSign_le (text : List Char) : (splitSign text).2.length ≤ text.length := by
  unfold splitSign
  split
  · exact Nat.le_succ _
  · exact Nat.le_succ _
  · exact Nat.le_refl _

/-- the digits in front of the point are a part of the text -/
theorem length_whole_le {text : List Char} {x : Numeral} (h : ofText? text = some x) :
    x.whole.length ≤ text.length := by
  have hwhole : x.whole = (splitDigits (splitSign text).2).1 := by
    unfold ofText? at h
    dsimp only at h
    split at h
    · cases h
    split at h
    · obtain rfl := Option.some.inj h
      rfl
    · obtain ⟨exponent, -, rfl⟩ := Option.map_eq_some_iff.mp h
      rfl
  rw [hwhole, splitDigits, List.span_eq_takeWhile_dropWhile]
  exact Nat.le_trans (List.takeWhile_sublist _).length_le (length_splitSign_le text)

theorem head_exponentText (exponent : Option (Bool × List Char)) :
    ∀ c ∈ (exponentText exponent).head?, c = 'e' := by
  intro c hc
  cases exponent with
  | none => cases hc
  | some p => exact (Option.some.inj hc).symm

variable {x : Numeral}

theorem IsWritten.splitFraction (h : x.IsWritten) :
    Numeral.splitFraction (fractionText x.fraction ++ exponentText x.exponent) =
      (x.fraction, exponentText x.exponent) := by
  cases hfraction : x.fraction with
  | some digits =>
    have hends : ∀ c ∈ (exponentText x.exponent).head?, isDecimalDigit c = false := by
      intro c hc
      rw [head_exponentText _ c hc]
      decide
    show (splitDigits (digits ++ exponentText x.exponent)).map some id = _
    rw [splitDigits_append (h.fraction digits hfraction).isDecimalDigit hends]
    rfl
  | none =>
    show Numeral.splitFraction (exponentText x.exponent) = _
    cases hexponent : x.exponent with
    | none => rfl
    | some p => rfl

theorem IsWritten.exponentOfText? (h : x.IsWritten) {p : Bool × List Char}
    (hexponent : x.exponent = some p) :
    Numeral.exponentOfText? (exponentText (some p)) = some p := by
  obtain ⟨negative, digits⟩ := p
  obtain ⟨hdigits, hne⟩ := h.exponent negative digits hexponent
  have hall : digits.all isDecimalDigit = true := List.all_eq_true.mpr hdigits.isDecimalDigit
  have hsign : splitSign ((if negative then '-' else '+') :: digits) = (negative, digits) := by
    cases negative <;> rfl
  rw [exponentText, Numeral.exponentOfText?, hsign]
  exact if_pos ⟨.inl rfl, hne, hall⟩

/-- A written numeral is read back. -/
theorem IsWritten.ofText?_text (h : x.IsWritten) : ofText? x.text = some x := by
  obtain ⟨c, cs, hwhole⟩ := List.exists_cons_of_ne_nil h.nonempty
  have hsign : splitSign x.text =
      (x.negative, x.whole ++ (fractionText x.fraction ++ exponentText x.exponent)) := by
    refine splitSign_signed _ fun d hd => ?_
    rw [hwhole] at hd
    obtain rfl := Option.some.inj hd
    exact h.whole.isDecimalDigit c (hwhole ▸ List.mem_cons_self)
  have hends : ∀ d ∈ (fractionText x.fraction ++ exponentText x.exponent).head?,
      isDecimalDigit d = false := by
    intro d hd
    cases hfraction : x.fraction with
    | some digits =>
      rw [hfraction] at hd
      obtain rfl := Option.some.inj hd
      decide
    | none =>
      rw [hfraction] at hd
      rw [head_exponentText _ d hd]
      decide
  have hdigits := splitDigits_append h.whole.isDecimalDigit hends
  unfold ofText?
  simp only [hsign, hdigits, h.splitFraction, h.nonempty, false_and, if_false]
  cases hexponent : x.exponent with
  | none =>
    rw [exponentText, if_pos rfl, ← hexponent]
  | some p =>
    rw [if_neg (by obtain ⟨_, _⟩ := p; exact List.cons_ne_nil _ _), h.exponentOfText? hexponent,
      Option.map_some, ← hexponent]

end Numeral

end AnnotatedScheme
