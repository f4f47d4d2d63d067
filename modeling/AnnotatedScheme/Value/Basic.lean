import AnnotatedScheme.Datum.Form

/-!
# Quoted values

A quoted datum is a value: an atom, the empty list, or a cell of two values. `Value.ofDatum`
chains the items of a list into cells; a dot before the last item makes that item the tail.
`Value.text` writes the cells of a chain as one list.
-/

namespace AnnotatedScheme

inductive Value
  | atom (value : Atom)
  | empty
  | cell (first second : Value)
  | gap
  deriving DecidableEq

namespace Value

/-- a tail that is left out is the empty list -/
def asTail : Value → Value
  | .gap => .empty
  | v => v

/-- the chain of the items in front of the tail -/
def ofList (items : List Value) (tail : Value) : Value := items.foldr .cell tail.asTail

/-! ## text -/

mutual
def text : Value → String
  | .atom value => value.text
  | .empty => "()"
  | .cell first second => "(" ++ first.text ++ second.tailText ++ ")"
  | .gap => ""

/-- the text between the first item of a list and its closing parenthesis -/
def tailText : Value → String
  | .atom value => " . " ++ value.text
  | .empty => ""
  | .cell first second => " " ++ first.text ++ second.tailText
  | .gap => " . "
end

def hasGap : Value → Bool
  | .atom _ => false
  | .empty => false
  | .cell first second => first.hasGap || second.hasGap
  | .gap => true

def gap? (v : Value) : Option Gap := if v.hasGap then some .value else none

/-- the text, if there is one -/
def written (v : Value) : Except Gap String := Gap.orText v.gap? v.text

/-! ## values of data -/

mutual
def ofDatum : Datum → Except FormError Value
  | .atom value =>
    if Datum.isDot (.atom value) then .error ⟨.noDot, .atom value⟩ else .ok (.atom value)
  | .list items => ofItems items
  | .gap => .ok .gap

def ofItems : List Datum → Except FormError Value
  | [] => .ok .empty
  | d :: rest =>
    match d.isDot, rest with
    | true, [tail] => (ofDatum tail).map asTail
    | _, rest => do return .cell (← ofDatum d) (← ofItems rest)
end

end Value

end AnnotatedScheme
