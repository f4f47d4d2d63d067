import AnnotatedScheme.Gap
import AnnotatedScheme.Number.Basic
import AnnotatedScheme.Text.Quoted

/-!
# Data

The reader makes data: atoms and lists. A dot in front of the last item of a list and a quote are
kept as symbols: `(a . b)` has three items, and a quoted `x` is the list of `quote` and `x`.
-/

namespace AnnotatedScheme

inductive Atom
  | number (value : Number)
  | boolean (value : Bool)
  | string (content : String)
  | symbol (name : String)
  deriving DecidableEq

def Atom.text : Atom → String
  | .number value => value.text
  | .boolean true => "#t"
  | .boolean false => "#f"
  | .string content => Quoted.text content
  | .symbol name => name

inductive Datum
  | atom (value : Atom)
  | list (items : List Datum)
  | gap

namespace Datum

abbrev symbol (name : String) : Datum := .atom (.symbol name)

abbrev dot : Datum := symbol "."

abbrev quote (d : Datum) : Datum := .list [symbol "quote", d]

def symbol? : Datum → Option String
  | .atom (.symbol name) => some name
  | _ => none

def isSymbol (name : String) (d : Datum) : Bool := d.symbol? = some name

def isDot : Datum → Bool := isSymbol "."

theorem isSymbol_iff {name : String} {d : Datum} : d.isSymbol name = true ↔ d = symbol name := by
  unfold isSymbol symbol?
  split <;> simp_all

/-! ## text -/

mutual
def text : Datum → String
  | .atom value => value.text
  | .list items => "(" ++ " ".intercalate (texts items) ++ ")"
  | .gap => ""

def texts : List Datum → List String
  | [] => []
  | d :: rest => d.text :: texts rest
end

mutual
def gap? : Datum → Option Gap
  | .atom _ => none
  | .list items => firstGap? items
  | .gap => some .datum

def firstGap? : List Datum → Option Gap
  | [] => none
  | d :: rest => d.gap?.or (firstGap? rest)
end

theorem texts_eq_map (items : List Datum) : texts items = items.map text := by
  induction items with
  | nil => rfl
  | cons d rest ih => rw [texts, ih, List.map_cons]

theorem firstGap?_eq_none_iff (items : List Datum) :
    firstGap? items = none ↔ ∀ d ∈ items, d.gap? = none := by
  induction items with
  | nil => simp [firstGap?]
  | cons d rest ih => simp [firstGap?, ih]

end Datum

end AnnotatedScheme
