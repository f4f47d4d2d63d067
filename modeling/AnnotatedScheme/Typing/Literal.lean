import AnnotatedScheme.Typing.Error

/-!
# Types of quoted values

A quoted cell has the pair type of what is in it, all the way down. Every other quoted value has
the type variable `literal`, whatever it is.
-/

namespace AnnotatedScheme

def literalType : Ty := .var "literal"

def Atom.typeInside : Atom → Ty
  | .number _ => .number
  | .boolean _ => .boolean
  | .string _ => .string
  | .symbol _ => literalType

namespace Value

/-- the type of a value inside of a cell -/
def typeInside : Value → Except TypingError Ty
  | .atom value => .ok value.typeInside
  | .empty => .ok .empty
  | .cell first second => return .pair (← first.typeInside) (← second.typeInside)
  | .gap => .error .missingValue

/-- the type of a quoted value -/
def typeQuoted : Value → Except TypingError Ty
  | .cell first second => (Value.cell first second).typeInside
  | _ => .ok literalType

end Value

end AnnotatedScheme
