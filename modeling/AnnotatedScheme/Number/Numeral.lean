import AnnotatedScheme.Number.Double
import AnnotatedScheme.Text.DecimalDigit

/-!
# Numerals

A numeral is an optional sign, digits with an optional point among, before or behind them, and an
optional exponent: the letter `e` in either case, an optional sign, digits. The digits may be of
any script. `Numeral.ofText?` takes a text apart, and `Numeral.toDouble` is the nearest double.
-/

namespace AnnotatedScheme

structure Numeral where
  negative : Bool
  whole : List Char
  /-- the digits behind the point, if there is a point -/
  fraction : Option (List Char)
  /-- sign and digits of the exponent, if there is one -/
  exponent : Option (Bool × List Char)
  deriving DecidableEq

namespace Numeral

/-- takes a sign off a text; without one it counts as plus -/
def splitSign : List Char → Bool × List Char
  | '+' :: rest => (false, rest)
  | '-' :: rest => (true, rest)
  | text => (false, text)

/-- the digits at the start of a text, and what follows them -/
def splitDigits (text : List Char) : List Char × List Char := text.span isDecimalDigit

/-- a point with the digits behind it, and what follows them -/
def splitFraction : List Char → Option (List Char) × List Char
  | '.' :: rest => ((splitDigits rest).map some id)
  | text => (none, text)

/-- an exponent that takes up the whole of a text -/
def exponentOfText? : List Char → Option (Bool × List Char)
  | c :: rest =>
    let (negative, digits) := splitSign rest
    if (c = 'e' ∨ c = 'E') ∧ digits ≠ [] ∧ digits.all isDecimalDigit then some (negative, digits)
    else none
  | [] => none

def ofText? (text : List Char) : Option Numeral :=
  let (negative, unsigned) := splitSign text
  let (whole, afterWhole) := splitDigits unsigned
  let (fraction, afterFraction) := splitFraction afterWhole
  if whole = [] ∧ fraction.getD [] = [] then none
  else if afterFraction = [] then some ⟨negative, whole, fraction, none⟩
  else
    (exponentOfText? afterFraction).map fun exponent =>
      ⟨negative, whole, fraction, some exponent⟩

/-- neither point nor exponent -/
def isPlain (x : Numeral) : Bool := x.fraction.isNone && x.exponent.isNone

def exponentValue (x : Numeral) : Int :=
  match x.exponent with
  | some (true, digits) => -digitsValue digits
  | some (false, digits) => digitsValue digits
  | none => 0

def toDecimal (x : Numeral) : Decimal :=
  let fraction := x.fraction.getD []
  ⟨x.negative, digitsValue (x.whole ++ fraction), x.exponentValue - fraction.length⟩

def toDouble (x : Numeral) : Double := Double.ofDecimal x.toDecimal

/-- the whole number that a plain numeral denotes -/
def toInt (x : Numeral) : Int :=
  if x.negative then -digitsValue x.whole else digitsValue x.whole

end Numeral

end AnnotatedScheme
