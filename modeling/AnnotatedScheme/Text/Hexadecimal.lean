/-!
# Hexadecimal numbers

`hexadecimal` writes a number with small letters and with zeros in front up to a width.
-/

namespace AnnotatedScheme

def hexadecimal (width n : Nat) : List Char :=
  let digits := Nat.toDigits 16 n
  List.replicate (width - digits.length) '0' ++ digits

end AnnotatedScheme
