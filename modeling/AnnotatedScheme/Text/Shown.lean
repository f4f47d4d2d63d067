import AnnotatedScheme.Text.Hexadecimal
import AnnotatedScheme.Text.Printable

/-!
# Names as messages show them

A name is shown between single quotes, or between double quotes if it has a single quote in it and
no double one. A backslash stands in front of the quote and of a backslash; line ends, tabs and
characters that cannot be printed are shown by their code.
-/

namespace AnnotatedScheme.Shown

def quoteFor (name : List Char) : Char :=
  if name.contains '\x27' && !name.contains '"' then '"' else '\x27'

/-- the code of a character, with as few digits as its kind of escape has -/
def code (c : Char) : List Char :=
  if c.toNat < 0x100 then '\\' :: 'x' :: hexadecimal 2 c.toNat
  else if c.toNat < 0x10000 then '\\' :: 'u' :: hexadecimal 4 c.toNat
  else '\\' :: 'U' :: hexadecimal 8 c.toNat

def character (quote c : Char) : List Char :=
  if c = quote ∨ c = '\\' then ['\\', c]
  else if c = '\n' then ['\\', 'n']
  else if c = '\r' then ['\\', 'r']
  else if c = '\t' then ['\\', 't']
  else if isPrintable c then [c]
  else code c

def text (name : String) : String :=
  let quote := quoteFor name.toList
  String.ofList (quote :: name.toList.flatMap (character quote) ++ [quote])

end AnnotatedScheme.Shown
