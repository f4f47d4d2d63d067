import AnnotatedScheme.Text.Ranges

/-!
# Blank characters

`isBlank` is the white space that may stand between two tokens: the control characters that
separate lines, fields and records, and the space separators of Unicode.
-/

namespace AnnotatedScheme

/-- the blank characters, as closed ranges of code points -/
def blankRanges : List (Nat × Nat) :=
  [(0x09, 0x0D), (0x1C, 0x20), (0x85, 0x85), (0xA0, 0xA0), (0x1680, 0x1680), (0x2000, 0x200A),
    (0x2028, 0x2029), (0x202F, 0x202F), (0x205F, 0x205F), (0x3000, 0x3000)]

def isBlank (c : Char) : Bool := inRanges blankRanges c

end AnnotatedScheme
