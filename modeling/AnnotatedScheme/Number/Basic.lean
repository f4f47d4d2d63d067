import AnnotatedScheme.Number.Notation
import AnnotatedScheme.Number.Numeral

/-!
# Numbers

A number is a whole number of any size or a double. `Number.ofText?` reads a numeral: a plain one
whose double is finite is the exact whole number, all others are their doubles. `Number.text`
writes a number; a double that is whole is written like the whole number it is.

The runtime converts whole numbers of up to `digitLimit` digits only. A plain numeral with more
digits, which is `Overlong`, can still be in the range of doubles, by its zeros in front; it is
refused. Whole numbers in this range have far fewer digits themselves (`Number.InRange.length_le`),
so each number that is read can be written. For larger ones, which are in trees built by hand only,
`Number.text` is what would be written without the limit.
-/

namespace AnnotatedScheme

inductive Number
  | int (value : Int)
  | double (value : Double)
  deriving DecidableEq

/-- the most digits with which a whole number is read or written, zeros in front counted -/
def digitLimit : Nat := 4300

/-- the number of digits in the text of a whole number, when there are too many -/
structure Overlong where
  digits : Nat
  deriving DecidableEq

def Overlong.message (e : Overlong) : String :=
  "Exceeds the limit (" ++ toString digitLimit ++
    " digits) for integer string conversion: value has " ++ toString e.digits ++
    " digits; use sys.set_int_max_str_digits() to increase the limit"

def Number.ofNumeral (numeral : Numeral) : Except Overlong Number :=
  if numeral.isPlain ∧ numeral.toDouble.toInt?.isSome then
    if numeral.whole.length ≤ digitLimit then .ok (.int numeral.toInt)
    else .error ⟨numeral.whole.length⟩
  else .ok (.double numeral.toDouble)

/-- the number that a text writes down, if it is a numeral -/
def Number.ofText? (text : List Char) : Option (Except Overlong Number) :=
  (Numeral.ofText? text).map Number.ofNumeral

def Notation.ofNumber : Number → List Char
  | .int value => ofInt value
  | .double value =>
    match value.toInt? with
    | some whole => ofInt whole
    | none => ofDouble value

def Number.text (x : Number) : String := String.ofList (Notation.ofNumber x)

/-- reads what `Double.text` writes -/
def Double.ofText? (text : String) : Option Double :=
  if text = Double.text (.infinite false) then some (.infinite false)
  else if text = Double.text (.infinite true) then some (.infinite true)
  else if text = Double.text .nan then some .nan
  else (Numeral.ofText? text.toList).map Numeral.toDouble

end AnnotatedScheme
