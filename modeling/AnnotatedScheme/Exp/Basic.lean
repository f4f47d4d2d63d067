import AnnotatedScheme.Ty.Basic
import AnnotatedScheme.Value.Basic

/-!
# Expressions

* `Exp`        the tree of a source text: expressions, definitions and programs, and the
               declarations and bindings in them;
* `Exp.text`   the source text of a tree;
* `Exp.names`  the type variables in the annotations of a tree, from left to right.

Where the grammar wants a certain kind of tree, one that was built by hand may have any other. It
still has a text and names; what it means for typing is said there.
-/

namespace AnnotatedScheme

inductive Exp
  | number (value : Number)
  | boolean (value : Bool)
  | string (content : String)
  | primitive (name : String)
  | var (name : String)
  | conditional (test consequent alternative : Exp)
  | lambda (params : List Exp) (result : Ty) (body : List Exp)
  | app (operator : Exp) (operands : List Exp)
  | letIn (bindings body : List Exp)
  | letrec (bindings body : List Exp)
  | quote (value : Value)
  | define (decl value : Exp)
  | program (forms : List Exp)
  /-- a variable with the type that is written beside it -/
  | decl (name : String) (type : Ty)
  | binding (decl value : Exp)
  | gap

/-- items in parentheses, with blanks between them -/
def listText (items : List String) : String := "(" ++ " ".intercalate items ++ ")"

namespace Exp

/-! ## text -/

mutual
def text : Exp → String
  | .number value => (Atom.number value).text
  | .boolean value => (Atom.boolean value).text
  | .string content => (Atom.string content).text
  | .primitive name => name
  | .var name => name
  | .conditional test consequent alternative =>
    listText ["if", test.text, consequent.text, alternative.text]
  | .lambda params result body =>
    listText ["lambda", listText (texts params), ":", result.text, " ".intercalate (texts body)]
  | .app operator operands => listText (operator.text :: texts operands)
  | .letIn bindings body =>
    listText ["let", listText (texts bindings), " ".intercalate (texts body)]
  | .letrec bindings body =>
    listText ["letrec", listText (texts bindings), " ".intercalate (texts body)]
  | .quote value => "'" ++ value.text
  | .define d value => listText ["define", d.text, value.text]
  | .program forms => listText ["L5", " ".intercalate (texts forms)]
  | .decl name type => listText [name, ":", type.text]
  | .binding d value => listText [d.text, value.text]
  | .gap => ""

def texts : List Exp → List String
  | [] => []
  | e :: rest => e.text :: texts rest
end

/-! ## gaps -/

mutual
def gap? : Exp → Option Gap
  | .conditional test consequent alternative =>
    test.gap?.or (consequent.gap?.or alternative.gap?)
  | .lambda params result body => (firstGap? params).or (result.gap?.or (firstGap? body))
  | .app operator operands => operator.gap?.or (firstGap? operands)
  | .letIn bindings body => (firstGap? bindings).or (firstGap? body)
  | .letrec bindings body => (firstGap? bindings).or (firstGap? body)
  | .quote value => value.gap?
  | .define d value => d.gap?.or value.gap?
  | .program forms => firstGap? forms
  | .decl _ type => type.gap?
  | .binding d value => d.gap?.or value.gap?
  | .gap => some .expression
  | _ => none

def firstGap? : List Exp → Option Gap
  | [] => none
  | e :: rest => e.gap?.or (firstGap? rest)
end

/-- the source text, if there is one -/
def written (e : Exp) : Except Gap String := Gap.orText e.gap? e.text

/-! ## annotations -/

mutual
def names : Exp → List String
  | .conditional test consequent alternative =>
    test.names ++ consequent.names ++ alternative.names
  | .lambda params result body => namesAll params ++ result.names ++ namesAll body
  | .app operator operands => operator.names ++ namesAll operands
  | .letIn bindings body => namesAll bindings ++ namesAll body
  | .letrec bindings body => namesAll bindings ++ namesAll body
  | .define d value => d.names ++ value.names
  | .program forms => namesAll forms
  | .decl _ type => type.names
  | .binding d value => d.names ++ value.names
  | _ => []

def namesAll : List Exp → List String
  | [] => []
  | e :: rest => e.names ++ namesAll rest
end

/-! ## declarations -/

/-- the variable that a declaration declares, with its type -/
def declared? : Exp → Option (String × Ty)
  | .decl name type => some (name, type)
  | _ => none

/-- the name of a declared variable, or of a variable without a type -/
def variableName? : Exp → Option String
  | .decl name _ => some name
  | .var name => some name
  | _ => none

/-- the declaration and the value of a binding; a definition is one as well -/
def bound? : Exp → Option (Exp × Exp)
  | .binding d value => some (d, value)
  | .define d value => some (d, value)
  | _ => none

/-! ## lists of expressions -/

theorem texts_eq_map (es : List Exp) : texts es = es.map text := by
  induction es with
  | nil => rfl
  | cons e es ih => rw [texts, ih, List.map_cons]

theorem namesAll_eq_flatMap (es : List Exp) : namesAll es = es.flatMap names := by
  induction es with
  | nil => rfl
  | cons e es ih => rw [namesAll, ih, List.flatMap_cons]

end Exp

end AnnotatedScheme
