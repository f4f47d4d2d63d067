import AnnotatedScheme.Datum.Token

/-!
# Forms

A datum stands for a type, a quoted value, an expression or a program if it has the form of one.
`Form` lists the rules that can be broken, `FormError` pairs a rule with the datum that breaks
it, and `SourceError` is all that can happen to a text before it is typed.
-/

namespace AnnotatedScheme

/-- a rule on the form of data -/
inductive Form
  | type
  | oneReturnType
  | parameterSeparators
  | program
  | nonEmptyProgram
  | noKeyword
  | knownAtom
  | variableName
  | declaration
  | nonEmptyExpression
  | defineAtTop
  | define
  | conditional
  | lambda
  | binding
  | letIn
  | letrec
  | nonEmptyBody
  | quote
  | noDot
  deriving DecidableEq

/-- what is said when the rule is broken -/
def Form.message : Form → String
  | .type => "Bad type expression"
  | .oneReturnType => "Procedure type needs exactly one return type"
  | .parameterSeparators => "Parameter types must be separated by '*'"
  | .program => "Program must be of the form (L5 <exp>+)"
  | .nonEmptyProgram => "Program cannot be empty"
  | .noKeyword => "Unexpected keyword"
  | .knownAtom => "Unexpected atom"
  | .variableName => "Bad variable name"
  | .declaration => "Variable declaration must be of the form (<var> : <texp>)"
  | .nonEmptyExpression => "Empty expression"
  | .defineAtTop => "define is only allowed at the top level"
  | .define => "define must be of the form (define (<var> : <texp>) <cexp>)"
  | .conditional => "Expression not of the form (if <cexp> <cexp> <cexp>)"
  | .lambda => "lambda must be of the form (lambda (<var-decl>*) : <texp> <cexp>+)"
  | .binding => "Binding must be of the form (<var-decl> <cexp>)"
  | .letIn => "let must be of the form (let (<binding>*) <cexp>+)"
  | .letrec => "letrec must be of the form (letrec (<binding>*) <cexp>+)"
  | .nonEmptyBody => "Body cannot be empty"
  | .quote => "quote takes exactly one datum"
  | .noDot => "Unexpected dot"

structure FormError where
  rule : Form
  datum : Datum

def FormError.message (e : FormError) : Except Gap String :=
  Gap.orText e.datum.gap? (e.rule.message ++ ": " ++ e.datum.text)

inductive SourceError
  | read (reason : Unread ReadError)
  | form (error : FormError)

def SourceError.message : SourceError → Except Gap String
  | .read reason => .ok reason.message
  | .form error => error.message

end AnnotatedScheme
