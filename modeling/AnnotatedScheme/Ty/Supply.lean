import AnnotatedScheme.Ty.Basic

/-!
# A supply of fresh names

A fresh name is a base, an underscore and the index of the supply. The index only grows, whatever
the base, and names that are reserved are passed over:

* `Supply.fresh`   one fresh name on a base;
* `Supply.rename`  a type with fresh variables, one for each variable that occurs in it, drawn in
                   the order in which they occur first.
-/

namespace AnnotatedScheme

structure Supply where
  reserved : List String
  next : Nat
  deriving DecidableEq

namespace Supply

def start (reserved : List String) : Supply := ⟨reserved, 1⟩

def candidate (base : String) (index : Nat) : String := base ++ "_" ++ toString index

/-- the first index, from the given one on, whose candidate is not reserved; each one passed over
uses up a reserved name -/
def freeIndex (base : String) (reserved : List String) (index : Nat) : Nat :=
  if candidate base index ∈ reserved then
    freeIndex base (reserved.erase (candidate base index)) (index + 1)
  else index
termination_by reserved.length
decreasing_by
  rename_i h
  have := List.length_pos_of_mem h
  rw [List.length_erase_of_mem h]
  omega

def fresh (base : String) (supply : Supply) : String × Supply :=
  let index := freeIndex base supply.reserved supply.next
  (candidate base index, { supply with next := index + 1 })

/-- a fresh name on each of the names -/
def freshEach : List String → Supply → List (String × String) × Supply
  | [], supply => ([], supply)
  | name :: rest, supply =>
    let (new, supply) := supply.fresh name
    let (mapping, supply) := freshEach rest supply
    ((name, new) :: mapping, supply)

/-- the new name of a variable -/
def renamed (mapping : List (String × String)) (name : String) : String :=
  (mapping.lookup name).getD name

def rename (t : Ty) (supply : Supply) : Ty × Supply :=
  let (mapping, supply) := freshEach t.names.eraseDups supply
  (t.substitute fun name => .var (renamed mapping name), supply)

end Supply

end AnnotatedScheme
