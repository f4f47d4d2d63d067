import AnnotatedScheme.Exp.Basic

/-!
# Typing errors

`TypingError` lists the rules of typing that can be violated, with the types and the expression
that a message shows. `requireEqual` is the one comparison of types that all rules use.
-/

namespace AnnotatedScheme

inductive TypingError
  | unbound (name : String)
  | recursive (name : String)
  | incompatible (left right : Ty) (site : Exp)
  | nonProcedure (type : Ty) (site : Exp)
  | operandCount (site : Exp)
  | consCount (site : Exp)
  | accessCount (operator : String) (site : Exp)
  | nonPair (operator : String) (type : Ty) (site : Exp)
  | nonLambda (site : Exp)
  | unsupported (operator : String)
  | emptyBody
  | emptySequence
  /-- a declaration or a binding stands for an expression, or something else for one of them -/
  | misplaced (site : Exp)
  | missingExpression
  | missingValue

namespace TypingError

/-- the first gap in what the message shows -/
def gap? : TypingError → Option Gap
  | .incompatible left right site => left.gap?.or (right.gap?.or site.gap?)
  | .nonProcedure type site => type.gap?.or site.gap?
  | .nonPair _ type site => type.gap?.or site.gap?
  | .operandCount site => site.gap?
  | .consCount site => site.gap?
  | .accessCount _ site => site.gap?
  | .nonLambda site => site.gap?
  | .misplaced site => site.gap?
  | _ => none

def text : TypingError → String
  | .unbound name => "Unbound variable: " ++ name
  | .recursive name => "Variable " ++ name ++ " is defined recursively"
  | .incompatible left right site =>
    "Incompatible types: " ++ left.text ++ " and " ++ right.text ++ " in " ++ site.text
  | .nonProcedure type site => "Application of non-procedure: " ++ type.text ++ " in " ++ site.text
  | .operandCount site => "Wrong parameter numbers passed to proc: " ++ site.text
  | .consCount site => "cons expects exactly 2 arguments: " ++ site.text
  | .accessCount operator site => operator ++ " expects exactly 1 argument: " ++ site.text
  | .nonPair operator type site =>
    operator ++ " expected a pair, got " ++ type.text ++ " in " ++ site.text
  | .nonLambda site => "letrec - only support binding of procedures - " ++ site.text
  | .unsupported operator => "Operator not supported: " ++ operator
  | .emptyBody => "Unexpected empty list of expressions"
  | .emptySequence => "Empty sequence"
  | .misplaced site => "Unknown expression: " ++ site.text
  | .missingExpression => "Unknown expression: None"
  | .missingValue => "Unknown SExp value: None"

def message (e : TypingError) : Except Gap String := Gap.orText e.gap? e.text

end TypingError

def requireEqual (left right : Ty) (site : Exp) : Except TypingError Unit :=
  if left = right then .ok () else .error (.incompatible left right site)

theorem requireEqual_eq_ok_iff {left right : Ty} {site : Exp} :
    requireEqual left right site = .ok () ↔ left = right := by
  unfold requireEqual
  split <;> simp_all

end AnnotatedScheme
