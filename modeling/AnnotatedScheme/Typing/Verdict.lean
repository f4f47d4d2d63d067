import AnnotatedScheme.Exp.Builder
import AnnotatedScheme.Typing.Checker

/-!
# Verdicts

`typeOfText` is the type of a source text, taken as a single form or as a program. `Verdict.ofText`
puts the outcome into words: the type, or the message of the first failure. Errors of the reader, of
form and of typing are such failures. Nothing else is: a numeral that is refused leaves the text
without a verdict, and so would a gap in what is to be written.
-/

namespace AnnotatedScheme

/-- why there is no type of a source text -/
inductive Failure
  | source (error : SourceError)
  | typing (error : TypingError)

def Failure.message : Failure → Except Gap String
  | .source error => error.message
  | .typing error => error.message

def typeOfText (kind : Exp.Kind) (text : String) : Except Failure Ty :=
  match Exp.ofText kind text with
  | .error e => .error (.source e)
  | .ok e => (e.typeIn .empty).mapError .typing

/-- what ends a check without a verdict -/
inductive Uncaught
  | gap (place : Gap)
  | overlong (numeral : Overlong)
  deriving DecidableEq

def Uncaught.message : Uncaught → String
  | .gap place => place.message
  | .overlong numeral => numeral.message

structure Verdict where
  success : Bool
  type? : Option String
  message? : Option String
  deriving DecidableEq

namespace Verdict

def ok (type : String) : Verdict := ⟨true, some type, none⟩

def failure (message : String) : Verdict := ⟨false, none, some message⟩

/-- a field as it is shown -/
def shown (field : Option String) : String := field.getD "None"

def text (verdict : Verdict) : String :=
  if verdict.success then "TypeCheckResult: " ++ shown verdict.type?
  else "TypeCheckResult: failed\n  " ++ shown verdict.message?

def ofText (kind : Exp.Kind) (text : String) : Except Uncaught Verdict :=
  match typeOfText kind text with
  | .ok t => (ok <$> t.written).mapError .gap
  | .error (.source (.read (.overlong numeral))) => .error (.overlong numeral)
  | .error reason => (failure <$> reason.message).mapError .gap

end Verdict

end AnnotatedScheme
