import AnnotatedScheme.Exp.Basic
import AnnotatedScheme.Ty.Reader

/-!
# Expressions of data

`Exp.ofDatum` is the expression that a datum stands for, `Exp.ofForm` allows a definition as well,
and `Exp.ofProgram` wants a program of such forms:

    program ::= (L5 form ...)                      one form at least
    form    ::= (define decl exp) | exp
    exp     ::= number | boolean | string | primitive | variable
              | (if exp exp exp)
              | (lambda (decl ...) : type body)
              | (let (binding ...) body) | (letrec (binding ...) body)
              | (quote datum)
              | (exp exp ...)
    body    ::= exp ...                            one expression at least
    decl    ::= (variable : type)
    binding ::= (decl exp)

The parts are read from left to right, and the first one that breaks a rule is the error.
-/

namespace AnnotatedScheme

/-- the names of the primitive operators -/
def primitiveNames : List String :=
  ["+", "-", "*", "/", ">", "<", "=", "not", "and", "or", "eq?", "string=?", "cons", "car", "cdr",
    "list", "pair?", "list?", "number?", "boolean?", "symbol?", "string?", "display", "newline"]

/-- the symbols that begin a form -/
def keywords : List String := ["L5", "define", "if", "lambda", "let", "letrec", "quote"]

/-! ## declarations -/

/-- whether a symbol may name a variable -/
def isVariableName (name : String) : Bool :=
  !primitiveNames.contains name && !keywords.contains name && name ≠ "."

namespace Exp

def ofDecl : Datum → Except FormError Exp
  | .list [name, colon, type] =>
    match name.symbol?, colon.isSymbol ":" with
    | some s, true =>
      if isVariableName s then return .decl s (← Ty.ofDatum type)
      else .error ⟨.variableName, .list [name, colon, type]⟩
    | _, _ => .error ⟨.declaration, .list [name, colon, type]⟩
  | d => .error ⟨.declaration, d⟩

/-! ## expressions -/

def ofAtom : Atom → Except FormError Exp
  | .number value => .ok (.number value)
  | .boolean value => .ok (.boolean value)
  | .string content => .ok (.string content)
  | .symbol name =>
    if primitiveNames.contains name then .ok (.primitive name)
    else if isVariableName name then .ok (.var name)
    else .error ⟨.noKeyword, .symbol name⟩

def ofQuoted (whole : Datum) : List Datum → Except FormError Exp
  | [d] => Exp.quote <$> Value.ofDatum d
  | _ => .error ⟨.quote, whole⟩

mutual
def ofDatum : Datum → Except FormError Exp
  | .atom value => ofAtom value
  | .gap => .error ⟨.knownAtom, .gap⟩
  | .list [] => .error ⟨.nonEmptyExpression, .list []⟩
  | .list (head :: rest) =>
    if head.isSymbol "define" then .error ⟨.defineAtTop, .list (head :: rest)⟩
    else if head.isSymbol "if" then ofConditional (.list (head :: rest)) rest
    else if head.isSymbol "lambda" then ofLambda (.list (head :: rest)) rest
    else if head.isSymbol "let" then ofScope .letIn .letIn (.list (head :: rest)) rest
    else if head.isSymbol "letrec" then ofScope .letrec .letrec (.list (head :: rest)) rest
    else if head.isSymbol "quote" then ofQuoted (.list (head :: rest)) rest
    else return .app (← ofDatum head) (← ofEach rest)
termination_by structural x => x

def ofConditional (whole : Datum) : List Datum → Except FormError Exp
  | [test, consequent, alternative] =>
    return .conditional (← ofDatum test) (← ofDatum consequent) (← ofDatum alternative)
  | _ => .error ⟨.conditional, whole⟩
termination_by structural x => x

def ofLambda (whole : Datum) : List Datum → Except FormError Exp
  | .list params :: colon :: result :: body =>
    if colon.isSymbol ":" then
      return .lambda (← params.mapM ofDecl) (← Ty.ofDatum result) (← ofBody whole body)
    else .error ⟨.lambda, whole⟩
  | _ => .error ⟨.lambda, whole⟩
termination_by structural x => x

/-- bindings and a body, made an expression by `scope` -/
def ofScope (form : Form) (scope : List Exp → List Exp → Exp) (whole : Datum) :
    List Datum → Except FormError Exp
  | .list bindings :: body => return scope (← ofBindings bindings) (← ofBody whole body)
  | _ => .error ⟨form, whole⟩
termination_by structural x => x

def ofBindings : List Datum → Except FormError (List Exp)
  | [] => .ok []
  | .list [d, value] :: rest =>
    return .binding (← ofDecl d) (← ofDatum value) :: (← ofBindings rest)
  | d :: _ => .error ⟨.binding, d⟩
termination_by structural x => x

def ofBody (whole : Datum) : List Datum → Except FormError (List Exp)
  | [] => .error ⟨.nonEmptyBody, whole⟩
  | d :: rest => return (← ofDatum d) :: (← ofEach rest)
termination_by structural x => x

def ofEach : List Datum → Except FormError (List Exp)
  | [] => .ok []
  | d :: rest => return (← ofDatum d) :: (← ofEach rest)
termination_by structural x => x
end

/-! ## forms and programs -/

def ofDefine (whole : Datum) : List Datum → Except FormError Exp
  | [d, value] => return .define (← ofDecl d) (← ofDatum value)
  | _ => .error ⟨.define, whole⟩

/-- an expression or a definition -/
def ofForm : Datum → Except FormError Exp
  | .list (head :: rest) =>
    if head.isSymbol "define" then ofDefine (.list (head :: rest)) rest
    else ofDatum (.list (head :: rest))
  | d => ofDatum d

def ofProgram : Datum → Except FormError Exp
  | .list (head :: forms) =>
    if !head.isSymbol "L5" then .error ⟨.program, .list (head :: forms)⟩
    else if forms.isEmpty then .error ⟨.nonEmptyProgram, .list (head :: forms)⟩
    else return .program (← forms.mapM ofForm)
  | d => .error ⟨.program, d⟩

/-! ## source text -/

/-- what a text is taken for -/
inductive Kind
  | form
  | program
  deriving DecidableEq

def ofText (kind : Kind) (text : String) : Except SourceError Exp :=
  match Datum.read text with
  | .error e => .error (.read e)
  | .ok d =>
    match kind with
    | .form => (ofForm d).mapError .form
    | .program => (ofProgram d).mapError .form

end Exp

end AnnotatedScheme
