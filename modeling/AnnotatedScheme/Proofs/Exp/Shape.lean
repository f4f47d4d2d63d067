import AnnotatedScheme.Env.Basic
import AnnotatedScheme.Proofs.Lists
import AnnotatedScheme.Proofs.Ty.Basic

/-!
# Shapes of trees

Trees can be built by hand with anything anywhere. What comes from data without gaps has the shape
that the grammar gives it, and its names are those of symbols in the data. The symbols are kept as
a condition `Q` on names:

* `Datum.Over`, `Value.Over`   no gaps, and all names satisfy `Q`;
* `Datum.Within`               data inside of a datum, on every level;
* `Exp.IsExpression`, `Exp.IsForm`, `Exp.IsProgram`   the trees of the grammar over such names;
                               a variable in a type is a symbol that is read as one (`IsTypeName`).

A tree of the grammar has no gap (`Exp.IsProgram.gap?`).
-/

namespace AnnotatedScheme

variable {Q : String → Prop}

inductive Datum.Over (Q : String → Prop) : Datum → Prop
  | atom {value : Atom} (h : ∀ name, value = .symbol name → Q name) : Over Q (.atom value)
  | list {items : List Datum} (h : ∀ d ∈ items, Over Q d) : Over Q (.list items)

inductive Value.Over (Q : String → Prop) : Value → Prop
  | atom {value : Atom} (h : ∀ name, value = .symbol name → Q name) : Over Q (.atom value)
  | empty : Over Q .empty
  | cell {first second : Value} (hfirst : Over Q first) (hsecond : Over Q second) :
      Over Q (.cell first second)

/-- the symbols that are read as type variables -/
def IsTypeName (Q : String → Prop) (name : String) : Prop :=
  Q name ∧ Ty.ofSymbol? name = some (.var name)

/-- a declaration that the grammar allows -/
structure IsDeclaration (Q : String → Prop) (p : String × Ty) : Prop where
  name : Q p.1
  variableName : isVariableName p.1 = true
  type : p.2.Over (IsTypeName Q)

/-- a variable with its declared type and its value -/
structure Bound where
  name : String
  type : Ty
  value : Exp

namespace Bound

def binding (b : Bound) : Exp := .binding (.decl b.name b.type) b.value

def declaration (b : Bound) : String × Ty := (b.name, b.type)

end Bound

namespace Exp

/-- the declarations of the variables in a frame -/
def decls (frame : Frame) : List Exp := frame.map fun (x, t) => .decl x t

inductive IsExpression (Q : String → Prop) : Exp → Prop
  | number (value : Number) : IsExpression Q (.number value)
  | boolean (value : Bool) : IsExpression Q (.boolean value)
  | string (content : String) : IsExpression Q (.string content)
  | primitive {name : String} (h : name ∈ primitiveNames) : IsExpression Q (.primitive name)
  | var {name : String} (h : Q name) (hname : isVariableName name = true) :
      IsExpression Q (.var name)
  | conditional {test consequent alternative : Exp} (htest : IsExpression Q test)
      (hconsequent : IsExpression Q consequent) (halternative : IsExpression Q alternative) :
      IsExpression Q (.conditional test consequent alternative)
  | lambda {params : Frame} {result : Ty} {body : List Exp}
      (hparams : ∀ p ∈ params, IsDeclaration Q p) (hresult : result.Over (IsTypeName Q))
      (nonempty : body ≠ []) (hbody : ∀ e ∈ body, IsExpression Q e) :
      IsExpression Q (.lambda (decls params) result body)
  | app {operator : Exp} {operands : List Exp} (hoperator : IsExpression Q operator)
      (hoperands : ∀ e ∈ operands, IsExpression Q e) : IsExpression Q (.app operator operands)
  | letIn {bounds : List Bound} {body : List Exp}
      (hbounds : ∀ b ∈ bounds, IsDeclaration Q b.declaration)
      (hvalues : ∀ b ∈ bounds, IsExpression Q b.value) (nonempty : body ≠ [])
      (hbody : ∀ e ∈ body, IsExpression Q e) :
      IsExpression Q (.letIn (bounds.map Bound.binding) body)
  | letrec {bounds : List Bound} {body : List Exp}
      (hbounds : ∀ b ∈ bounds, IsDeclaration Q b.declaration)
      (hvalues : ∀ b ∈ bounds, IsExpression Q b.value) (nonempty : body ≠ [])
      (hbody : ∀ e ∈ body, IsExpression Q e) :
      IsExpression Q (.letrec (bounds.map Bound.binding) body)
  | quote {value : Value} (h : value.Over Q) : IsExpression Q (.quote value)

inductive IsForm (Q : String → Prop) : Exp → Prop
  | expression {e : Exp} (h : IsExpression Q e) : IsForm Q e
  | define {name : String} {t : Ty} {value : Exp}
      (hdecl : IsDeclaration Q (name, t)) (hvalue : IsExpression Q value) :
      IsForm Q (.define (.decl name t) value)

inductive IsProgram (Q : String → Prop) : Exp → Prop
  | form {e : Exp} (h : IsForm Q e) : IsProgram Q e
  | program {forms : List Exp} (nonempty : forms ≠ []) (hforms : ∀ e ∈ forms, IsForm Q e) :
      IsProgram Q (.program forms)

end Exp

/-! ## no gaps -/

theorem Value.Over.hasGap {v : Value} (h : v.Over Q) : v.hasGap = false := by
  induction h with
  | cell _ _ ihf ihs => rw [Value.hasGap, ihf, ihs]; rfl
  | _ => rfl

namespace Datum

@[elab_as_elim]
theorem induct {motive : Datum → Prop} (atom : ∀ value, motive (.atom value))
    (list : ∀ items, (∀ d ∈ items, motive d) → motive (.list items)) (gap : motive .gap)
    (d : Datum) : motive d :=
  @Datum.rec motive (fun items => ∀ d ∈ items, motive d) atom list gap
    (fun _ hd => absurd hd List.not_mem_nil)
    (fun _ _ hd htl d' hd' => (List.mem_cons.mp hd').elim (fun e => e ▸ hd) (htl d')) d

theorem Over.gap? {d : Datum} (h : d.Over Q) : d.gap? = none := by
  induction h with
  | atom => rfl
  | list _ ih => exact (firstGap?_eq_none_iff _).mpr ih

theorem over_of_gap? {d : Datum} (h : d.gap? = none) : d.Over fun _ => True := by
  induction d using Datum.induct with
  | atom value => exact .atom fun _ _ => trivial
  | list items ih => exact .list fun d hd => ih d hd ((firstGap?_eq_none_iff items).mp h d hd)
  | gap => cases h

/-! ## data inside of data -/

/-- `part` is the whole, or an item of a list inside of it -/
inductive Within (part : Datum) : Datum → Prop
  | refl : Within part part
  | item {d : Datum} {items : List Datum} (h : d ∈ items) (within : Within part d) :
      Within part (.list items)

theorem Within.trans {a b c : Datum} (h : a.Within b) (h' : b.Within c) : a.Within c := by
  induction h' with
  | refl => exact h
  | item hd _ ih => exact .item hd ih

theorem within_of_mem {d : Datum} {items : List Datum} (h : d ∈ items) : d.Within (.list items) :=
  .item h .refl

theorem within_list_iff {part : Datum} {items : List Datum} :
    part.Within (.list items) ↔ part = .list items ∨ ∃ d ∈ items, part.Within d := by
  refine ⟨fun h => ?_, fun h => ?_⟩
  · cases h with
    | refl => exact .inl rfl
    | item hd within => exact .inr ⟨_, hd, within⟩
  · rcases h with rfl | ⟨d, hd, within⟩
    · exact .refl
    · exact .item hd within

/-- induction on data, with the hypothesis for all data inside of the items of a list -/
@[elab_as_elim]
theorem deepInduct {motive : Datum → Prop} (atom : ∀ value, motive (.atom value))
    (list : ∀ items, (∀ d ∈ items, ∀ part, part.Within d → motive part) → motive (.list items))
    (gap : motive .gap) (d : Datum) : motive d := by
  suffices h : ∀ part : Datum, part.Within d → motive part from h d .refl
  induction d using induct with
  | atom value =>
    rintro _ ⟨⟩
    exact atom value
  | list items ih =>
    rintro part (_ | ⟨hd, within⟩)
    · exact list items ih
    · exact ih _ hd part within
  | gap =>
    rintro _ ⟨⟩
    exact gap

theorem Over.within {part whole : Datum} (h : whole.Over Q) (within : part.Within whole) :
    part.Over Q := by
  induction within with
  | refl => exact h
  | item hd _ ih =>
    cases h with
    | list h => exact ih (h _ hd)

end Datum

/-! ## trees without gaps -/

namespace Exp

@[elab_as_elim]
theorem induct {motive : Exp → Prop} (number : ∀ value, motive (.number value))
    (boolean : ∀ value, motive (.boolean value)) (string : ∀ content, motive (.string content))
    (primitive : ∀ name, motive (.primitive name)) (var : ∀ name, motive (.var name))
    (conditional : ∀ test consequent alternative, motive test → motive consequent →
      motive alternative → motive (.conditional test consequent alternative))
    (lambda : ∀ params result body, (∀ e ∈ params, motive e) → (∀ e ∈ body, motive e) →
      motive (.lambda params result body))
    (app : ∀ operator operands, motive operator → (∀ e ∈ operands, motive e) →
      motive (.app operator operands))
    (letIn : ∀ bindings body, (∀ e ∈ bindings, motive e) → (∀ e ∈ body, motive e) →
      motive (.letIn bindings body))
    (letrec : ∀ bindings body, (∀ e ∈ bindings, motive e) → (∀ e ∈ body, motive e) →
      motive (.letrec bindings body))
    (quote : ∀ value, motive (.quote value))
    (define : ∀ d value, motive d → motive value → motive (.define d value))
    (program : ∀ forms, (∀ e ∈ forms, motive e) → motive (.program forms))
    (decl : ∀ name type, motive (.decl name type))
    (binding : ∀ d value, motive d → motive value → motive (.binding d value))
    (gap : motive .gap) (e : Exp) : motive e :=
  @Exp.rec motive (fun es => ∀ e ∈ es, motive e) number boolean string primitive var conditional
    lambda app letIn letrec quote define program decl binding gap
    (fun _ he => absurd he List.not_mem_nil)
    (fun _ _ he hrest e' he' => (List.mem_cons.mp he').elim (fun h => h ▸ he) (hrest e')) e

theorem firstGap?_eq_none_iff {es : List Exp} :
    firstGap? es = none ↔ ∀ e ∈ es, e.gap? = none := by
  induction es with
  | nil => simp [firstGap?]
  | cons e rest ih => simp [firstGap?, ih]

theorem IsExpression.gap? {e : Exp} (h : e.IsExpression Q) : e.gap? = none := by
  induction h with
  | conditional _ _ _ iht ihc iha => simp [Exp.gap?, iht, ihc, iha]
  | @lambda params result body hparams hresult _ _ ihb =>
    have hdecls : firstGap? (decls params) = none := by
      rw [firstGap?_eq_none_iff, decls]
      intro d hd
      obtain ⟨p, hp, rfl⟩ := List.mem_map.mp hd
      exact (hparams p hp).type.gap?
    simp [Exp.gap?, hdecls, hresult.gap?, firstGap?_eq_none_iff.mpr ihb]
  | app _ _ iho iha => simp [Exp.gap?, iho, firstGap?_eq_none_iff.mpr iha]
  | @letIn bounds _ hbounds _ _ _ ihv ihb | @letrec bounds _ hbounds _ _ _ ihv ihb =>
    have hbindings : firstGap? (bounds.map Bound.binding) = none := by
      rw [firstGap?_eq_none_iff]
      refine List.forall_mem_map.mpr fun b hb => ?_
      have htype : b.type.gap? = none := (hbounds b hb).type.gap?
      rw [Bound.binding, Exp.gap?, Exp.gap?, htype, ihv b hb]
      rfl
    simp [Exp.gap?, hbindings, firstGap?_eq_none_iff.mpr ihb]
  | quote h => simp [Exp.gap?, Value.gap?, h.hasGap]
  | _ => rfl

theorem IsForm.gap? {e : Exp} (h : e.IsForm Q) : e.gap? = none := by
  cases h with
  | expression h => exact h.gap?
  | define hdecl hvalue => rw [Exp.gap?, Exp.gap?, hdecl.type.gap?, hvalue.gap?]; rfl

theorem IsProgram.gap? {e : Exp} (h : e.IsProgram Q) : e.gap? = none := by
  cases h with
  | form h => exact h.gap?
  | program _ hforms => exact firstGap?_eq_none_iff.mpr fun e he => (hforms e he).gap?

end Exp

end AnnotatedScheme
