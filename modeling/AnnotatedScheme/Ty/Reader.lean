import AnnotatedScheme.Datum.Reader
import AnnotatedScheme.Datum.Form
import AnnotatedScheme.Ty.Basic

/-!
# Reading types

`Ty.ofDatum` is the type that a datum writes down. In the list of a procedure type every second
item is a type, and the items between are separators: stars between the parameters, and one arrow
before the result.
-/

namespace AnnotatedScheme.Ty

/-- the types that have a name of their own -/
def ofName? (name : String) : Option Ty :=
  if name = "number" then some .number
  else if name = "boolean" then some .boolean
  else if name = "string" then some .string
  else if name = "void" then some .void
  else if name = "Empty" then some .empty
  else none

/-- the symbols that are no type -/
def reservedNames : List String := ["->", "*", "Pair", ":", "."]

def ofSymbol? (name : String) : Option Ty :=
  match ofName? name with
  | some t => some t
  | none => if reservedNames.contains name then none else some (.var name)

def ofAtom : Atom → Except FormError Ty
  | .symbol name =>
    match ofSymbol? name with
    | some t => .ok t
    | none => .error ⟨.type, .symbol name⟩
  | value => .error ⟨.type, .atom value⟩

/-! ## lists -/

/-- the items in the first, third, fifth … place -/
def everySecond {α : Type} : List α → List α
  | [] => []
  | [a] => [a]
  | a :: _ :: rest => a :: everySecond rest

def isPair : List Datum → Bool
  | [head, _, _] => head.isSymbol "Pair"
  | _ => false

/-- items that are no stars, with stars between them -/
def wellSeparated : List Datum → Bool
  | [] => false
  | [t] => !t.isSymbol "*"
  | t :: separator :: rest => !t.isSymbol "*" && separator.isSymbol "*" && wellSeparated rest

/-- the rule on arrows and stars that a list with an arrow breaks, if any -/
def brokenRule? (items : List Datum) : Option Form :=
  let params := items.takeWhile fun d => !d.isSymbol "->"
  if params.length + 2 ≠ items.length then some .oneReturnType
  else if wellSeparated params then none
  else some .parameterSeparators

/-- the procedure type of its parameters and, in the last place, its result; a single parameter
`Empty` says that there is none -/
def procOfParts (parts : List Ty) : Ty :=
  .proc (if parts.dropLast = [.empty] then [] else parts.dropLast) (parts.getLastD .gap)

/-- the type that a list writes down, of what its items write down -/
def ofItems (items : List Datum) (parts : List (Except FormError Ty)) : Except FormError Ty :=
  match isPair items, parts with
  | true, [_, first, second] => return .pair (← first) (← second)
  | _, parts =>
    if items.any (Datum.isSymbol "->") then
      match brokenRule? items with
      | some rule => .error ⟨rule, .list items⟩
      | none => return procOfParts (← (everySecond parts).mapM id)
    else .error ⟨.type, .list items⟩

mutual
def ofDatum : Datum → Except FormError Ty
  | .atom value => ofAtom value
  | .list items => ofItems items (ofEach items)
  | .gap => .error ⟨.type, .gap⟩

def ofEach : List Datum → List (Except FormError Ty)
  | [] => []
  | d :: rest => ofDatum d :: ofEach rest
end

theorem ofEach_eq_map (items : List Datum) : ofEach items = items.map ofDatum := by
  induction items with
  | nil => rfl
  | cons d rest ih => rw [ofEach, ih, List.map_cons]

def ofText (text : String) : Except SourceError Ty :=
  match Datum.read text with
  | .error e => .error (.read e)
  | .ok d => (ofDatum d).mapError .form

end AnnotatedScheme.Ty
