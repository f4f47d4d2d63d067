import AnnotatedScheme.Gap

/-!
# Types

* `Ty`             the types that annotations write down; a variable is matched by its name;
* `Ty.induct`      induction on types, with the parameters of a procedure as a list;
* `Ty.text`        the written form: `number`, `T`, `(number * T -> boolean)`, `(Pair T number)`;
* `Ty.occurs`      whether a variable occurs in a type, `Ty.names` all that do, from left to right;
* `Ty.substitute`  a type put in the place of each variable.

Two types are equal exactly if they are built alike, so equality is decidable.
-/

namespace AnnotatedScheme

inductive Ty
  | number
  | boolean
  | string
  | void
  | empty
  | var (name : String)
  | proc (params : List Ty) (result : Ty)
  | pair (first second : Ty)
  | gap

namespace Ty

@[elab_as_elim]
theorem induct {motive : Ty → Prop} (number : motive .number) (boolean : motive .boolean)
    (string : motive .string) (void : motive .void) (empty : motive .empty)
    (var : ∀ name, motive (.var name))
    (proc : ∀ params result,
      (∀ p ∈ params, motive p) → motive result → motive (.proc params result))
    (pair : ∀ first second, motive first → motive second → motive (.pair first second))
    (gap : motive .gap) (t : Ty) : motive t :=
  @Ty.rec motive (fun params => ∀ p ∈ params, motive p) number boolean string void empty var proc
    pair gap (fun _ hp => absurd hp List.not_mem_nil)
    (fun _ _ hd htl p hp => (List.mem_cons.mp hp).elim (fun e => e ▸ hd) (htl p)) t

/-! ## equality -/

mutual
def same : Ty → Ty → Bool
  | .number, .number => true
  | .boolean, .boolean => true
  | .string, .string => true
  | .void, .void => true
  | .empty, .empty => true
  | .var a, .var b => a = b
  | .proc params result, .proc params' result' => sameAll params params' && same result result'
  | .pair first second, .pair first' second' => same first first' && same second second'
  | .gap, .gap => true
  | _, _ => false

def sameAll : List Ty → List Ty → Bool
  | [], [] => true
  | a :: as, b :: bs => same a b && sameAll as bs
  | _, _ => false
end

mutual
theorem same_self : ∀ a : Ty, same a a = true
  | .number | .boolean | .string | .void | .empty | .gap => rfl
  | .var _ => by simp [same]
  | .proc params result => by simp [same, sameAll_self params, same_self result]
  | .pair first second => by simp [same, same_self first, same_self second]

theorem sameAll_self : ∀ as : List Ty, sameAll as as = true
  | [] => rfl
  | a :: as => by simp [sameAll, same_self a, sameAll_self as]
end

mutual
theorem eq_of_same : ∀ a b : Ty, same a b = true → a = b
  | .number, b, h => by cases b <;> simp_all [same]
  | .boolean, b, h => by cases b <;> simp_all [same]
  | .string, b, h => by cases b <;> simp_all [same]
  | .void, b, h => by cases b <;> simp_all [same]
  | .empty, b, h => by cases b <;> simp_all [same]
  | .gap, b, h => by cases b <;> simp_all [same]
  | .var _, b, h => by cases b <;> simp_all [same]
  | .proc params result, b, h => by
    cases b with
    | proc params' result' =>
      simp only [same, Bool.and_eq_true] at h
      rw [eq_of_sameAll _ _ h.1, eq_of_same _ _ h.2]
    | _ => simp [same] at h
  | .pair first second, b, h => by
    cases b with
    | pair first' second' =>
      simp only [same, Bool.and_eq_true] at h
      rw [eq_of_same _ _ h.1, eq_of_same _ _ h.2]
    | _ => simp [same] at h

theorem eq_of_sameAll : ∀ as bs : List Ty, sameAll as bs = true → as = bs
  | [], bs, h => by cases bs <;> simp_all [sameAll]
  | a :: as, bs, h => by
    cases bs with
    | nil => simp [sameAll] at h
    | cons b bs =>
      simp only [sameAll, Bool.and_eq_true] at h
      rw [eq_of_same _ _ h.1, eq_of_sameAll _ _ h.2]
end

theorem same_iff {a b : Ty} : same a b = true ↔ a = b :=
  ⟨eq_of_same a b, fun h => h ▸ same_self a⟩

instance : DecidableEq Ty := fun _ _ => decidable_of_iff _ same_iff

/-! ## text -/

/-- the parameters in front of an arrow -/
def paramsText : List String → String
  | [] => "Empty"
  | params => " * ".intercalate params

mutual
def text : Ty → String
  | .number => "number"
  | .boolean => "boolean"
  | .string => "string"
  | .void => "void"
  | .empty => "Empty"
  | .var name => name
  | .proc params result => "(" ++ paramsText (texts params) ++ " -> " ++ result.text ++ ")"
  | .pair first second => "(Pair " ++ first.text ++ " " ++ second.text ++ ")"
  | .gap => ""

def texts : List Ty → List String
  | [] => []
  | t :: rest => t.text :: texts rest
end

mutual
def hasGap : Ty → Bool
  | .proc params result => anyGap params || result.hasGap
  | .pair first second => first.hasGap || second.hasGap
  | .gap => true
  | _ => false

def anyGap : List Ty → Bool
  | [] => false
  | t :: rest => t.hasGap || anyGap rest
end

def gap? (t : Ty) : Option Gap := if t.hasGap then some .type else none

/-- the written form, if there is one -/
def written (t : Ty) : Except Gap String := Gap.orText t.gap? t.text

/-! ## variables -/

mutual
/-- whether a variable occurs in a type -/
def occurs (name : String) : Ty → Bool
  | .var n => n = name
  | .proc params result => occursAny name params || result.occurs name
  | .pair first second => first.occurs name || second.occurs name
  | _ => false

def occursAny (name : String) : List Ty → Bool
  | [] => false
  | t :: rest => t.occurs name || occursAny name rest
end

mutual
/-- the variables of a type as they stand, from left to right -/
def names : Ty → List String
  | .var name => [name]
  | .proc params result => namesAll params ++ result.names
  | .pair first second => first.names ++ second.names
  | _ => []

def namesAll : List Ty → List String
  | [] => []
  | t :: rest => t.names ++ namesAll rest
end

mutual
/-- the type with `f name` in the place of each variable -/
def substitute (f : String → Ty) : Ty → Ty
  | .var name => f name
  | .proc params result => .proc (substituteAll f params) (result.substitute f)
  | .pair first second => .pair (first.substitute f) (second.substitute f)
  | t => t

def substituteAll (f : String → Ty) : List Ty → List Ty
  | [] => []
  | t :: rest => t.substitute f :: substituteAll f rest
end

theorem texts_eq_map (ts : List Ty) : texts ts = ts.map text := by
  induction ts with
  | nil => rfl
  | cons t ts ih => rw [texts, ih, List.map_cons]

theorem namesAll_eq_flatMap (ts : List Ty) : namesAll ts = ts.flatMap names := by
  induction ts with
  | nil => rfl
  | cons t ts ih => rw [namesAll, ih, List.flatMap_cons]

theorem substituteAll_eq_map (f : String → Ty) (ts : List Ty) :
    substituteAll f ts = ts.map (substitute f) := by
  induction ts with
  | nil => rfl
  | cons t ts ih => rw [substituteAll, ih, List.map_cons]

theorem occursAny_eq_any (name : String) (ts : List Ty) :
    occursAny name ts = ts.any (occurs name) := by
  induction ts with
  | nil => rfl
  | cons t ts ih => rw [occursAny, ih, List.any_cons]

end Ty

/-! ## sets of names -/

/-- the order of names by their code points -/
def notBehind : List Char → List Char → Bool
  | [], _ => true
  | _ :: _, [] => false
  | a :: as, b :: bs => if a = b then notBehind as bs else Nat.blt a.toNat b.toNat

/-- a set of names as a list: each of them once, in order -/
def sortNames (names : List String) : List String :=
  names.eraseDups.mergeSort fun a b => notBehind a.toList b.toList

end AnnotatedScheme
