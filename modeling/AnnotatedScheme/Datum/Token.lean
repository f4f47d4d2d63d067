import AnnotatedScheme.Datum.Basic
import AnnotatedScheme.Text.Blank

/-!
# Tokens

`Token.scan` cuts a text into tokens and leaves out blanks and comments, which run from a
semicolon to the end of the line:

* `Token.Shape`     parenthesis of either kind, quote, dot, or an atom with its value;
* `Token.shapeOf`   the shape that begins at a character, and how many characters it takes;
* `ReadError`       what can be wrong with a text, and the line where it is;
* `Unread`          why a text is not read: an error of the reader, or a whole number with too many
                    digits, which is none.

The line of a token is the number of line ends up to its last character.
-/

namespace AnnotatedScheme

/-! ## errors -/

inductive ReadError.Cause
  | quoteWithoutDatum
  | unterminatedString (text : String)
  | invalidEscape (escape : Char)
  | invalidAtom (lexeme : String)
  | invalidBoolean (lexeme : String)
  | unmatchedParenthesis
  | missingParenthesis
  | severalDots
  | misplacedDot
  | notOneExpression (count : Nat)
  deriving DecidableEq

/-- lines are counted from zero, and shown from one -/
structure ReadError where
  cause : ReadError.Cause
  line : Nat
  deriving DecidableEq

def ReadError.Cause.message : ReadError.Cause → String
  | .quoteWithoutDatum => "quote must be followed by a datum"
  | .unterminatedString text => "unterminated string: " ++ text
  | .invalidEscape escape => "invalid escape sequence: \\" ++ String.singleton escape
  | .invalidAtom lexeme => "invalid atom: " ++ lexeme
  | .invalidBoolean lexeme => "invalid boolean: " ++ lexeme
  | .unmatchedParenthesis => "unmatched right parenthesis"
  | .missingParenthesis => "list missing right parenthesis"
  | .severalDots => "a list can contain at most one dot"
  | .misplacedDot => "dot must be second to last in a list"
  | .notOneExpression count => "expected exactly one expression, found " ++ toString count

def ReadError.message (e : ReadError) : String :=
  "reader error in line " ++ toString (e.line + 1) ++ ": " ++ e.cause.message

/-- why there are no tokens or data: an error, or a numeral that the runtime does not convert -/
inductive Unread (ε : Type)
  | reader (error : ε)
  | overlong (numeral : Overlong)
  deriving DecidableEq

namespace Unread

/-- the same reason with another error -/
def map {ε ε' : Type} (f : ε → ε') : Unread ε → Unread ε'
  | .reader e => .reader (f e)
  | .overlong numeral => .overlong numeral

def message : Unread ReadError → String
  | .reader e => e.message
  | .overlong numeral => numeral.message

end Unread

/-! ## atoms -/

/-- the characters that end an atom -/
def endsAtom (c : Char) : Bool := isBlank c || ['(', ')', '[', ']', ';'].contains c

/-- the characters that may not stand in an atom behind its first character -/
def isForbidden (c : Char) : Bool := ['\x7b', '\x7d', '"', ',', '\x60', '|', '\\'].contains c

/-- the value of an atom that is not a string -/
def Atom.ofLexeme (lexeme : List Char) : Except (Unread ReadError.Cause) Atom :=
  if lexeme.head? = some '#' then
    if lexeme = ['#', 't'] then .ok (.boolean true)
    else if lexeme = ['#', 'f'] then .ok (.boolean false)
    else .error (.reader (.invalidBoolean (String.ofList lexeme)))
  else
    match Number.ofText? lexeme with
    | some (.ok value) => .ok (.number value)
    | some (.error numeral) => .error (.overlong numeral)
    | none => .ok (.symbol (String.ofList lexeme))

/-- the atom that begins with `c`, and the number of its characters in `rest` -/
def Atom.scan (c : Char) (rest : List Char) : Except (Unread ReadError.Cause) (Atom × Nat) :=
  let body := rest.takeWhile fun d => !endsAtom d
  match body.findIdx? isForbidden with
  | some i => .error (.reader (.invalidAtom (String.ofList (c :: body.take (i + 1)))))
  | none => (Atom.ofLexeme (c :: body)).map fun value => (value, body.length)

/-! ## tokens -/

inductive Token.Shape
  | leftParen
  | rightParen
  | quote
  | dot
  | atom (value : Atom)
  deriving DecidableEq

structure Token where
  shape : Token.Shape
  line : Nat
  lexeme : String
  deriving DecidableEq

namespace Token

/-- the string behind an opening quote, and the number of characters up to its closing quote -/
def scanString (line : Nat) (rest : List Char) : Except ReadError (Atom × Nat) :=
  match Quoted.decode rest with
  | .ok body => .ok (.string (String.ofList body.content), body.length)
  | .error .unclosed =>
    .error ⟨.unterminatedString (String.ofList ('"' :: rest)), line + rest.count '\n'⟩
  | .error (.invalidEscape escape offset) =>
    .error ⟨.invalidEscape escape, line + (rest.take offset).count '\n'⟩

/-- the shape that begins with `c`, and the number of its characters in `rest` -/
def shapeOf (line : Nat) (c : Char) (rest : List Char) :
    Except (Unread ReadError) (Shape × Nat) :=
  if c = '(' ∨ c = '[' then .ok (.leftParen, 0)
  else if c = ')' ∨ c = ']' then .ok (.rightParen, 0)
  else if c = '\x27' then
    if rest.head?.any fun d => !isBlank d then .ok (.quote, 0)
    else .error (.reader ⟨.quoteWithoutDatum, line⟩)
  else if c = '"' then
    ((scanString line rest).map fun (value, n) => (.atom value, n)).mapError .reader
  else if c = '.' ∧ rest.head?.all endsAtom then .ok (.dot, 0)
  else
    match Atom.scan c rest with
    | .ok (value, n) => .ok (.atom value, n)
    | .error reason => .error (reason.map (⟨·, line⟩))

/-- the tokens of a text whose first character stands in the given line -/
def scanFrom (line : Nat) : List Char → Except (Unread ReadError) (List Token)
  | [] => .ok []
  | c :: rest =>
    if c = '\n' then scanFrom (line + 1) rest
    else if isBlank c then scanFrom line rest
    else if c = ';' then scanFrom line (rest.dropWhile (· ≠ '\n'))
    else do
      let (shape, n) ← shapeOf line c rest
      let taken := rest.take n
      let last := line + taken.count '\n'
      let tokens ← scanFrom last (rest.drop n)
      return ⟨shape, last, String.ofList (c :: taken)⟩ :: tokens
termination_by text => text.length
decreasing_by
  · simp
  · simp
  · have := (List.dropWhile_sublist (fun d => decide (d ≠ '\n')) (l := rest)).length_le
    simp only [List.length_cons]
    omega
  · simp only [List.length_drop, List.length_cons]
    omega

def scan (text : String) : Except (Unread ReadError) (List Token) := scanFrom 0 text.toList

end Token

end AnnotatedScheme
