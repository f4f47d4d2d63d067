/-!
# Doubles

A finite double is a whole number of units of `2^-1074`, the smallest positive double:

* `Double.Size`       `mantissa * 2^scale` units, in the one normal form of that number;
* `Size.nearest?`     the size nearest to a ratio of units, ties going to the even mantissa, or
                      nothing if that size is too large;
* `Double`            a signed size, an infinity of either sign, or no number;
* `Double.ofDecimal`  the double nearest to a decimal fraction.
-/

namespace AnnotatedScheme

/-- the quotient rounded to the nearest whole number, ties going to the even one -/
def roundDiv (num den : Nat) : Nat :=
  if 2 * (num % den) < den ∨ (2 * (num % den) = den ∧ num / den % 2 = 0) then num / den
  else num / den + 1

theorem le_roundDiv (num den : Nat) : num / den ≤ roundDiv num den := by
  unfold roundDiv; split <;> omega

theorem roundDiv_le (num den : Nat) : roundDiv num den ≤ num / den + 1 := by
  unfold roundDiv; split <;> omega

theorem roundDiv_mul_self (n : Nat) {den : Nat} (h : 0 < den) : roundDiv (n * den) den = n := by
  simp [roundDiv, Nat.mul_mod_left, Nat.mul_div_cancel _ h, h]

/-- the powers of two and of ten -/
abbrev twoPow (n : Nat) : Nat := Nat.pow 2 n

abbrev tenPow (n : Nat) : Nat := Nat.pow 10 n

namespace Double

/-! ## sizes -/

/-- at most 53 bits, all of them in use unless the scale is the lowest, and no overflow -/
abbrev Normal (mantissa scale : Nat) : Prop :=
  mantissa < twoPow 53 ∧ scale ≤ 2045 ∧ (scale = 0 ∨ twoPow 52 ≤ mantissa)

structure Size where
  mantissa : Nat
  scale : Nat
  normal : Normal mantissa scale
  deriving DecidableEq

namespace Size

def zero : Size := ⟨0, 0, by decide⟩

def units (x : Size) : Nat := x.mantissa * twoPow x.scale

def make? (mantissa scale : Nat) : Option Size :=
  if h : Normal mantissa scale then some ⟨mantissa, scale, h⟩ else none

/-- the size nearest to `num / den` units -/
def nearest? (num den : Nat) : Option Size :=
  let scale := (num / den).log2 - 52
  let mantissa := roundDiv num (den * twoPow scale)
  if mantissa = twoPow 53 then make? (twoPow 52) (scale + 1) else make? mantissa scale

theorem make?_mantissa_scale (x : Size) : make? x.mantissa x.scale = some x :=
  dif_pos x.normal

end Size

end Double

/-! ## doubles -/

inductive Double
  | finite (negative : Bool) (size : Double.Size)
  | infinite (negative : Bool)
  | nan
  deriving DecidableEq

/-- the number of decimal digits, none for zero -/
def digitCount (n : Nat) : Nat := if n = 0 then 0 else digitCount (n / 10) + 1

/-- the decimal fraction `digits * 10^exponent`, with a sign -/
structure Decimal where
  negative : Bool
  digits : Nat
  exponent : Int
  deriving DecidableEq

/-- the fraction lies below `10^magnitude`, and not below a tenth of it -/
def Decimal.magnitude (x : Decimal) : Int := digitCount x.digits + x.exponent

namespace Double

/-- the double of a size, or an infinity if there is none -/
def ofSize? (negative : Bool) : Option Size → Double
  | some size => .finite negative size
  | none => .infinite negative

/-- the double nearest to `num / den` -/
def ofRatio (negative : Bool) (num den : Nat) : Double :=
  ofSize? negative (Size.nearest? (num * twoPow 1074) den)

/-- the double nearest to a decimal fraction; no power of ten is computed for fractions that are
far beyond the largest double or far below the smallest one -/
def ofDecimal (x : Decimal) : Double :=
  if x.digits = 0 ∨ x.magnitude < -330 then .finite x.negative .zero
  else if 310 < x.magnitude then .infinite x.negative
  else ofRatio x.negative (x.digits * tenPow x.exponent.toNat) (tenPow (-x.exponent).toNat)

/-- the whole number that a double is, if it is one -/
def toInt? : Double → Option Int
  | .finite negative size =>
    let whole : Int := (size.units / twoPow 1074 : Nat)
    if size.units % twoPow 1074 = 0 then some (if negative then -whole else whole) else none
  | .infinite _ => none
  | .nan => none

end Double

end AnnotatedScheme
