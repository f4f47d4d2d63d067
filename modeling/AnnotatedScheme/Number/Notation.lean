import AnnotatedScheme.Number.Shortest

/-!
# Notation of doubles

A double is written with its shortest digits. From a ten-thousandth up to `10^16` the notation is
positional, with at least one digit on either side of the point (`0.5`, `12.0`); outside, one
digit stands before the point, the point is left out when nothing follows it, and the exponent has
a sign and at least two digits (`1e+16`, `1.5e-07`).
-/

namespace AnnotatedScheme

/-- the same fraction without zeros at the end of its digits -/
def Decimal.reduce (x : Decimal) : Decimal :=
  if h : x.digits ≠ 0 ∧ x.digits % 10 = 0 then
    reduce ⟨x.negative, x.digits / 10, x.exponent + 1⟩
  else x
termination_by x.digits
decreasing_by omega

namespace Notation

def digitText (n : Nat) : List Char := Nat.toDigits 10 n

/-- the digits with the point after the first `point` of them, zeros filling the places up to it -/
def positional (digits : List Char) (point : Int) : List Char :=
  if point ≤ 0 then '0' :: '.' :: List.replicate (-point).toNat '0' ++ digits
  else if digits.length ≤ point.toNat then
    digits ++ List.replicate (point.toNat - digits.length) '0' ++ ['.', '0']
  else digits.take point.toNat ++ '.' :: digits.drop point.toNat

def exponentText (exponent : Int) : List Char :=
  let size := digitText exponent.natAbs
  'e' :: (if exponent < 0 then '-' else '+') :: List.replicate (2 - size.length) '0' ++ size

def scientific (digits : List Char) (exponent : Int) : List Char :=
  digits.take 1 ++ (if digits.length ≤ 1 then [] else '.' :: digits.drop 1) ++ exponentText exponent

/-- the exponents of ten of the leading digit for which the notation is positional -/
def IsPositional (exponent : Int) : Prop := -4 ≤ exponent ∧ exponent < 16

instance (exponent : Int) : Decidable (IsPositional exponent) :=
  inferInstanceAs (Decidable (_ ∧ _))

def ofDecimal (x : Decimal) : List Char :=
  let digits := digitText x.reduce.digits
  let point : Int := digits.length + x.reduce.exponent
  if IsPositional (point - 1) then positional digits point else scientific digits (point - 1)

def signed (negative : Bool) (text : List Char) : List Char :=
  if negative then '-' :: text else text

def ofDouble : Double → List Char
  | .finite negative size =>
    signed negative (if size.units = 0 then ['0', '.', '0'] else ofDecimal size.shortest)
  | .infinite negative => signed negative ['i', 'n', 'f']
  | .nan => ['n', 'a', 'n']

/-- decimal digits, with a minus sign if negative -/
def ofInt (value : Int) : List Char := signed (value < 0) (digitText value.natAbs)

end Notation

def Double.text (x : Double) : String := String.ofList (Notation.ofDouble x)

end AnnotatedScheme
