import AnnotatedScheme.Env.Basic
import AnnotatedScheme.Ty.Supply
import AnnotatedScheme.Typing.Literal
import AnnotatedScheme.Typing.Primitive

/-!
# Typing

`Exp.typeOf` computes the type of an expression in an environment from the annotations; nothing is
inferred, and type variables are compared by name. It stops at the first rule that is violated.

    if          the test is boolean, both branches have the same type, which is the type
    lambda      the body has the declared result type in the environment with the parameters
    application the operands have exactly the parameter types; `car`, `cdr` and `cons` as operators
                look at the types of their operands instead
    let         each value has its declared type in the outer environment
    letrec      each value is a lambda, whose annotations give the type of its variable; the bodies
                are typed with all of these variables
    define      the value has the declared type; the type is void
    body        all expressions are typed, the last one gives the type
    program     like a body, but a definition binds its variable for the forms behind it

Declarations and bindings have no types of their own. In a let or letrec, a definition does for a
binding.

Each reference to a primitive whose signature has type variables draws fresh ones, so a check runs
with a supply of names, and keeps it when it fails.
-/

namespace AnnotatedScheme

abbrev Check := EStateM TypingError Supply

namespace Check

def ofExcept {α : Type} : Except TypingError α → Check α
  | .ok a => pure a
  | .error e => throw e

def requireEqual (left right : Ty) (site : Exp) : Check Unit :=
  ofExcept (AnnotatedScheme.requireEqual left right site)

/-- the variable that `decl` declares for a value of the type `t`, which must be the declared one -/
def declare (decl : Exp) (t : Ty) (site : Exp) : Check (String × Ty) :=
  match decl.declared? with
  | none => throw (.misplaced site)
  | some (name, declared) => do
    requireEqual declared t site
    return (name, declared)

/-- a type with fresh variables -/
def instantiate (t : Ty) : Check Ty := modifyGet (Supply.rename t)

/-- the outcome, and the supply behind it -/
def outcome {α : Type} (check : Check α) (supply : Supply) : Except TypingError α × Supply :=
  match check.run supply with
  | .ok a supply => (.ok a, supply)
  | .error e supply => (.error e, supply)

end Check

/-- the primitives that look at the types of their operands -/
inductive PairOperator
  | car
  | cdr
  | cons
  deriving DecidableEq

namespace PairOperator

def ofExp? : Exp → Option PairOperator
  | .primitive name =>
    if name = "car" then some .car
    else if name = "cdr" then some .cdr
    else if name = "cons" then some .cons
    else none
  | _ => none

def name : PairOperator → String
  | .car => "car"
  | .cdr => "cdr"
  | .cons => "cons"

end PairOperator

namespace Exp

def typeOfPrimitive (name : String) : Check Ty :=
  match Primitive.signature? name with
  | some t => Check.instantiate t
  | none => throw (.unsupported name)

/-- the declared variables, if there are only declarations -/
def frame? (decls : List Exp) : Option Frame := decls.mapM declared?

/-- the type that the annotations of a lambda give it -/
def lambdaType? : Exp → Option Ty
  | .lambda params result _ => do return .proc ((← frame? params).map Prod.snd) result
  | _ => none

/-- the types of the variables of a letrec, if all of its values are lambdas; a variable needs no
type beside it, and a binding without a variable binds nothing -/
def lambdaFrame? (bindings : List Exp) : Option Frame := do
  let entries ← bindings.mapM fun b => do
    let (d, value) ← b.bound?
    let t ← value.lambdaType?
    return d.variableName?.map fun name => (name, t)
  return entries.filterMap id

/-- the environment for what follows a form -/
def scopeBehind (env : Env) : Exp → Except TypingError Env
  | .define (.decl name type) _ =>
    (env.combine (env.extend [(name, type)])).mapError .recursive
  | _ => .ok env

mutual
def typeOf (env : Env) : Exp → Check Ty
  | .number _ => pure .number
  | .boolean _ => pure .boolean
  | .string _ => pure .string
  | .primitive name => typeOfPrimitive name
  | .var name =>
    match env.lookup name with
    | some t => pure t
    | none => throw (.unbound name)
  | .conditional test consequent alternative => do
    let site := Exp.conditional test consequent alternative
    Check.requireEqual (← typeOf env test) .boolean site
    let t ← typeOf env consequent
    Check.requireEqual t (← typeOf env alternative) site
    return t
  | .lambda params result body =>
    match frame? params with
    | none => throw (.misplaced (.lambda params result body))
    | some frame => do
      Check.requireEqual (← typeOfBody (env.extend frame) body) result (.lambda params result body)
      return .proc (frame.map Prod.snd) result
  | .app operator operands =>
    match PairOperator.ofExp? operator with
    | some .cons => typeOfCons env (.app operator operands) operands
    | some access => typeOfAccess env access (.app operator operands) operands
    | none => do
      match ← typeOf env operator with
      | .proc params result =>
        if operands.length ≠ params.length then throw (.operandCount (.app operator operands))
        checkOperands env (.app operator operands) operands params
        return result
      | t => throw (.nonProcedure t (.app operator operands))
  | .letIn bindings body => do
    let frame ← frameOfLet env (.letIn bindings body) bindings
    typeOfBody (env.extend frame) body
  | .letrec bindings body =>
    match lambdaFrame? bindings with
    | none => throw (.nonLambda (.letrec bindings body))
    | some frame => do
      checkLambdas (env.extend frame) (.letrec bindings body) bindings
      typeOfBody (env.extend frame) body
  | .quote value => Check.ofExcept value.typeQuoted
  | .define d value => do
    discard (Check.declare d (← typeOf env value) (.define d value))
    return .void
  | .program forms => typeOfForms env forms
  | .decl name type => throw (.misplaced (.decl name type))
  | .binding d value => throw (.misplaced (.binding d value))
  | .gap => throw .missingExpression
termination_by structural x => x

/-- all are typed, the last one gives the type -/
def typeOfBody (env : Env) : List Exp → Check Ty
  | [] => throw .emptyBody
  | e :: rest => do
    let t ← typeOf env e
    if rest.isEmpty then return t else typeOfBody env rest
termination_by structural x => x

/-- like a body, with a definition in force for the forms behind it -/
def typeOfForms (env : Env) : List Exp → Check Ty
  | [] => throw .emptySequence
  | e :: rest => do
    let t ← typeOf env e
    let behind ← Check.ofExcept (scopeBehind env e)
    if rest.isEmpty then return t else typeOfForms behind rest
termination_by structural x => x

def typeOfCons (env : Env) (site : Exp) : List Exp → Check Ty
  | [first, second] => return .pair (← typeOf env first) (← typeOf env second)
  | _ => throw (.consCount site)
termination_by structural x => x

def typeOfAccess (env : Env) (access : PairOperator) (site : Exp) : List Exp → Check Ty
  | [operand] => do
    match ← typeOf env operand with
    | .pair first second => return if access = .car then first else second
    | t => throw (.nonPair access.name t site)
  | _ => throw (.accessCount access.name site)
termination_by structural x => x

/-- each operand has the type of its parameter -/
def checkOperands (env : Env) (site : Exp) : List Exp → List Ty → Check Unit
  | e :: operands, t :: params => do
    Check.requireEqual (← typeOf env e) t site
    checkOperands env site operands params
  | _, _ => return
termination_by structural x => x

/-- each value has its declared type; the quotation of a gap counts as a binding without a value -/
def frameOfLet (env : Env) (site : Exp) : List Exp → Check Frame
  | [] => return []
  | .binding d value :: rest => do
    let entry ← Check.declare d (← typeOf env value) site
    return entry :: (← frameOfLet env site rest)
  | .define d value :: rest => do
    let entry ← Check.declare d (← typeOf env value) site
    return entry :: (← frameOfLet env site rest)
  | .quote .gap :: _ => throw .missingExpression
  | e :: _ => throw (.misplaced e)
termination_by structural x => x

/-- each lambda's body has its declared result type -/
def checkLambdas (env : Env) (site : Exp) : List Exp → Check Unit
  | [] => return
  | .binding _ value :: rest => do
    checkLambda env site value
    checkLambdas env site rest
  | .define _ value :: rest => do
    checkLambda env site value
    checkLambdas env site rest
  | _ :: rest => checkLambdas env site rest
termination_by structural x => x

def checkLambda (env : Env) (site : Exp) : Exp → Check Unit
  | .lambda params result body =>
    match frame? params with
    | none => throw (.misplaced (.lambda params result body))
    | some frame => do
      Check.requireEqual (← typeOfBody (env.extend frame) body) result site
  | _ => return
termination_by structural x => x
end

/-- the type of an expression; fresh variables avoid the names in its annotations and in `env` -/
def typeIn (env : Env) (e : Exp) : Except TypingError Ty :=
  ((typeOf env e).outcome (Supply.start (e.names ++ env.names))).1

end Exp

end AnnotatedScheme
