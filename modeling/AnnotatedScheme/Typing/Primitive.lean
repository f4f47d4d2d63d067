import AnnotatedScheme.Ty.Basic

/-!
# Signatures of the primitives

`Primitive.signature?` is the type of a primitive operator, with type variables where any type
will do. Not every primitive has one: `list` is known to the grammar only.
-/

namespace AnnotatedScheme.Primitive

def arithmetic : Ty := .proc [.number, .number] .number

def comparison : Ty := .proc [.number, .number] .boolean

def connective : Ty := .proc [.boolean, .boolean] .boolean

def predicate : Ty := .proc [.var "T"] .boolean

def binaryPredicate : Ty := .proc [.var "T1", .var "T2"] .boolean

def signatures : List (String × Ty) :=
  [("+", arithmetic), ("-", arithmetic), ("*", arithmetic), ("/", arithmetic),
    (">", comparison), ("<", comparison), ("=", comparison),
    ("and", connective), ("or", connective), ("not", .proc [.boolean] .boolean),
    ("number?", predicate), ("boolean?", predicate), ("string?", predicate),
    ("list?", predicate), ("pair?", predicate), ("symbol?", predicate),
    ("eq?", binaryPredicate), ("string=?", binaryPredicate),
    ("display", .proc [.var "T"] .void), ("newline", .proc [] .void),
    ("cons", .proc [.var "T1", .var "T2"] (.pair (.var "T1") (.var "T2"))),
    ("car", .proc [.pair (.var "T1") (.var "T2")] (.var "T1")),
    ("cdr", .proc [.pair (.var "T1") (.var "T2")] (.var "T2"))]

def signature? (name : String) : Option Ty := signatures.lookup name

end AnnotatedScheme.Primitive
