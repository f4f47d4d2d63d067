import AnnotatedScheme.Proofs.Exp.Shape

/-!
# The typing rules as a judgement

`HasType env e t` is derived by the written rules of typing, without supplies, errors or an order
of the checks. It covers the expressions and definitions in which primitives have types without
variables, but for `car`, `cdr` and `cons` as operators:

* `Env.Resolves`      the type in the nearest binding of a variable;
* `PrimitiveType`     the primitives whose types have no variables;
* `QuotedType`        quoted data;
* `HasTypes`          expressions with their types, one by one;
* `HasBody`           expressions that all have a type in the same environment, with the last one's.
-/

namespace AnnotatedScheme

/-- in the frames, one behind the other, the first binding of `x` has the type `t` -/
def Env.Resolves (env : Env) (x : String) (t : Ty) : Prop :=
  t ≠ .gap ∧ ∃ front back, env.frames.flatten = front ++ (x, t) :: back ∧
    ∀ entry ∈ front, entry.1 ≠ x

inductive PrimitiveType : String → Ty → Prop
  | arithmetic {name : String} (h : name ∈ ["+", "-", "*", "/"]) :
      PrimitiveType name (.proc [.number, .number] .number)
  | comparison {name : String} (h : name ∈ [">", "<", "="]) :
      PrimitiveType name (.proc [.number, .number] .boolean)
  | connective {name : String} (h : name ∈ ["and", "or"]) :
      PrimitiveType name (.proc [.boolean, .boolean] .boolean)
  | not : PrimitiveType "not" (.proc [.boolean] .boolean)
  | newline : PrimitiveType "newline" (.proc [] .void)

/-- the types of data inside of a quoted cell -/
inductive DatumType : Value → Ty → Prop
  | number (value : Number) : DatumType (.atom (.number value)) .number
  | boolean (value : Bool) : DatumType (.atom (.boolean value)) .boolean
  | string (content : String) : DatumType (.atom (.string content)) .string
  | symbol (name : String) : DatumType (.atom (.symbol name)) (.var "literal")
  | empty : DatumType .empty .empty
  | cell {first second : Value} {t u : Ty} (hfirst : DatumType first t)
      (hsecond : DatumType second u) : DatumType (.cell first second) (.pair t u)

inductive QuotedType : Value → Ty → Prop
  | cell {first second : Value} {t : Ty} (h : DatumType (.cell first second) t) :
      QuotedType (.cell first second) t
  | other {value : Value} (h : ∀ first second, value ≠ .cell first second) :
      QuotedType value (.var "literal")

/-- a lambda that a letrec binds; the type declared for the variable is not used -/
structure Procedure where
  name : String
  declared : Ty
  params : Frame
  result : Ty
  body : List Exp

namespace Procedure

def lambda (p : Procedure) : Exp := .lambda (Exp.decls p.params) p.result p.body

def bound (p : Procedure) : Bound := ⟨p.name, p.declared, p.lambda⟩

def type (p : Procedure) : Ty := .proc (p.params.map Prod.snd) p.result

/-- the variables of a letrec with the types of their lambdas -/
def frame (ps : List Procedure) : Frame := ps.map fun p => (p.name, p.type)

end Procedure

mutual
inductive HasType : Env → Exp → Ty → Prop
  | number {env : Env} (value : Number) : HasType env (.number value) .number
  | boolean {env : Env} (value : Bool) : HasType env (.boolean value) .boolean
  | string {env : Env} (content : String) : HasType env (.string content) .string
  | var {env : Env} {x : String} {t : Ty} (h : env.Resolves x t) : HasType env (.var x) t
  | primitive {env : Env} {name : String} {t : Ty} (h : PrimitiveType name t) :
      HasType env (.primitive name) t
  | quote {env : Env} {value : Value} {t : Ty} (h : QuotedType value t) :
      HasType env (.quote value) t
  | conditional {env : Env} {test consequent alternative : Exp} {t : Ty}
      (htest : HasType env test .boolean) (hconsequent : HasType env consequent t)
      (halternative : HasType env alternative t) :
      HasType env (.conditional test consequent alternative) t
  | lambda {env : Env} {params : Frame} {result : Ty} {body : List Exp}
      (hbody : HasBody (env.extend params) body result) :
      HasType env (.lambda (Exp.decls params) result body) (.proc (params.map Prod.snd) result)
  | app {env : Env} {operator : Exp} {operands : List Exp} {params : List Ty} {t : Ty}
      (h : ∀ name ∈ ["car", "cdr", "cons"], operator ≠ .primitive name)
      (hoperator : HasType env operator (.proc params t))
      (hoperands : HasTypes env operands params) : HasType env (.app operator operands) t
  | car {env : Env} {operand : Exp} {first second : Ty}
      (h : HasType env operand (.pair first second)) :
      HasType env (.app (.primitive "car") [operand]) first
  | cdr {env : Env} {operand : Exp} {first second : Ty}
      (h : HasType env operand (.pair first second)) :
      HasType env (.app (.primitive "cdr") [operand]) second
  | cons {env : Env} {a b : Exp} {first second : Ty} (ha : HasType env a first)
      (hb : HasType env b second) :
      HasType env (.app (.primitive "cons") [a, b]) (.pair first second)
  | letIn {env : Env} {bounds : List Bound} {body : List Exp} {t : Ty}
      (hvalues : HasTypes env (bounds.map Bound.value) (bounds.map Bound.type))
      (hbody : HasBody (env.extend (bounds.map Bound.declaration)) body t) :
      HasType env (.letIn (bounds.map Bound.binding) body) t
  | letrec {env : Env} {ps : List Procedure} {body : List Exp} {t : Ty}
      (hbodies : ∀ p ∈ ps,
        HasBody ((env.extend (Procedure.frame ps)).extend p.params) p.body p.result)
      (hbody : HasBody (env.extend (Procedure.frame ps)) body t) :
      HasType env (.letrec ((ps.map Procedure.bound).map Bound.binding) body) t
  | define {env : Env} {x : String} {value : Exp} {t : Ty} (h : HasType env value t) :
      HasType env (.define (.decl x t) value) .void

inductive HasTypes : Env → List Exp → List Ty → Prop
  | nil {env : Env} : HasTypes env [] []
  | cons {env : Env} {e : Exp} {es : List Exp} {t : Ty} {ts : List Ty} (head : HasType env e t)
      (tail : HasTypes env es ts) : HasTypes env (e :: es) (t :: ts)

inductive HasBody : Env → List Exp → Ty → Prop
  | last {env : Env} {e : Exp} {t : Ty} (h : HasType env e t) : HasBody env [e] t
  | cons {env : Env} {e : Exp} {es : List Exp} {t u : Ty} (head : HasType env e u)
      (tail : HasBody env es t) : HasBody env (e :: es) t
end

end AnnotatedScheme
