import AnnotatedScheme.Proofs.Exp.Shape
import AnnotatedScheme.Proofs.Ty.Basic

/-!
# Nodes of trees

`Exp.children` are the nodes directly below a node, and `Exp.NodeOf` says that a node is in a tree.

`Exp.fields` takes a node apart, field by field, and says of each field whether it holds nodes, a
type, or neither. The type variables of a tree are those of its fields (`Exp.names_eq_fields`), so
no kind of field is left out: all nodes in fields are children, and all types are annotations.

* `Exp.Annotates t e`             `t` is written directly in `e`, beside a variable that is declared
                                  or as the type of the result of a lambda;
* `Exp.mem_names_iff_annotated`   the type variables of a tree are those of the annotations of its
                                  nodes;
* `Exp.names_iff_occurs`          the same in terms of occurrences in types.
-/

namespace AnnotatedScheme.Exp

def children : Exp → List Exp
  | .conditional test consequent alternative => [test, consequent, alternative]
  | .lambda params _ body => params ++ body
  | .app operator operands => operator :: operands
  | .letIn bindings body => bindings ++ body
  | .letrec bindings body => bindings ++ body
  | .define d value => [d, value]
  | .program forms => forms
  | .binding d value => [d, value]
  | .number _ | .boolean _ | .string _ | .primitive _ | .var _ | .quote _ => []
  | .decl _ _ | .gap => []

/-- `node` is the whole tree, or below it -/
inductive NodeOf (node : Exp) : Exp → Prop
  | root : NodeOf node node
  | child {next whole : Exp} (h : next ∈ whole.children) (below : NodeOf node next) :
      NodeOf node whole

theorem NodeOf.trans {a b c : Exp} (h : NodeOf a b) (h' : NodeOf b c) : NodeOf a c := by
  induction h' with
  | root => exact h
  | child hnext _ ih => exact .child hnext ih

/-- induction on the children of nodes -/
@[elab_as_elim]
theorem childrenInduct {motive : Exp → Prop}
    (step : ∀ e : Exp, (∀ child ∈ e.children, motive child) → motive e) (e : Exp) : motive e := by
  induction e using Exp.induct with
  | conditional _ _ _ iht ihc iha =>
    exact step _ (List.forall_mem_cons.mpr ⟨iht, List.forall_mem_cons.mpr
      ⟨ihc, List.forall_mem_singleton.mpr iha⟩⟩)
  | lambda _ _ _ ihp ihb => exact step _ (List.forall_mem_append.mpr ⟨ihp, ihb⟩)
  | app _ _ iho ihs => exact step _ (List.forall_mem_cons.mpr ⟨iho, ihs⟩)
  | letIn _ _ ihbs ihb | letrec _ _ ihbs ihb =>
    exact step _ (List.forall_mem_append.mpr ⟨ihbs, ihb⟩)
  | define _ _ ihd ihv | binding _ _ ihd ihv =>
    exact step _ (List.forall_mem_cons.mpr ⟨ihd, List.forall_mem_singleton.mpr ihv⟩)
  | program _ ih => exact step _ ih
  | _ => exact step _ (List.forall_mem_nil _)

/-! ## fields -/

inductive Field
  | node (e : Exp)
  | nodes (es : List Exp)
  | type (t : Ty)
  /-- a name, a constant or a quoted value -/
  | plain

namespace Field

def exps : Field → List Exp
  | .node e => [e]
  | .nodes es => es
  | .type _ | .plain => []

def types : Field → List Ty
  | .type t => [t]
  | .plain | .node _ | .nodes _ => []

/-- the type variables of a field, those of the nodes and those of the types in it -/
def names (field : Field) : List String :=
  field.exps.flatMap Exp.names ++ field.types.flatMap Ty.names

end Field

def fields : Exp → List Field
  | .number _ | .boolean _ | .string _ | .primitive _ | .var _ | .quote _ => [.plain]
  | .decl _ type => [.plain, .type type]
  | .binding d value => [.node d, .node value]
  | .conditional test consequent alternative => [.node test, .node consequent, .node alternative]
  | .lambda params result body => [.nodes params, .type result, .nodes body]
  | .app operator operands => [.node operator, .nodes operands]
  | .letIn bindings body => [.nodes bindings, .nodes body]
  | .letrec bindings body => [.nodes bindings, .nodes body]
  | .define d value => [.node d, .node value]
  | .program forms => [.nodes forms]
  | .gap => []

theorem children_eq_fields (e : Exp) : e.children = e.fields.flatMap Field.exps := by
  cases e <;> simp [children, fields, Field.exps]

theorem names_eq_fields (e : Exp) : e.names = e.fields.flatMap Field.names := by
  cases e <;> simp [names, fields, Field.names, Field.exps, Field.types, namesAll_eq_flatMap]

/-! ## annotations -/

inductive Annotates (t : Ty) : Exp → Prop
  | decl {name : String} : Annotates t (.decl name t)
  | lambda {params body : List Exp} : Annotates t (.lambda params t body)

variable {e node : Exp} {t : Ty} {name : String}

theorem annotates_iff : Annotates t e ↔ t ∈ e.fields.flatMap Field.types := by
  refine ⟨fun h => ?_, fun h => ?_⟩
  · cases h <;> simp [fields, Field.types]
  · cases e with
    | decl x type =>
      obtain rfl : t = type := by simpa [fields, Field.types] using h
      exact .decl
    | lambda params result body =>
      obtain rfl : t = result := by simpa [fields, Field.types] using h
      exact .lambda
    | _ => simp [fields, Field.types] at h

/-- a type variable of a tree is one of its annotations at the root, or one of a child -/
theorem mem_names_iff : name ∈ e.names ↔
    (∃ t, Annotates t e ∧ name ∈ t.names) ∨ ∃ child ∈ e.children, name ∈ child.names := by
  rw [names_eq_fields, children_eq_fields]
  simp only [annotates_iff, List.mem_flatMap, Field.names, List.mem_append]
  constructor
  · rintro ⟨field, hfield, ⟨child, hchild, hname⟩ | ⟨t, ht, hname⟩⟩
    · exact .inr ⟨child, ⟨field, hfield, hchild⟩, hname⟩
    · exact .inl ⟨t, ⟨field, hfield, ht⟩, hname⟩
  · rintro (⟨t, ⟨field, hfield, ht⟩, hname⟩ | ⟨child, ⟨field, hfield, hchild⟩, hname⟩)
    · exact ⟨field, hfield, .inr ⟨t, ht, hname⟩⟩
    · exact ⟨field, hfield, .inl ⟨child, hchild, hname⟩⟩

theorem NodeOf.names (h : NodeOf node e) (hname : name ∈ node.names) : name ∈ e.names := by
  induction h with
  | root => exact hname
  | child hnext _ ih => exact mem_names_iff.mpr (.inr ⟨_, hnext, ih⟩)

theorem mem_names_iff_annotated :
    name ∈ e.names ↔ ∃ node t, NodeOf node e ∧ Annotates t node ∧ name ∈ t.names := by
  refine ⟨fun h => ?_, fun h => ?_⟩
  · induction e using childrenInduct with
    | step e ih =>
      rcases mem_names_iff.mp h with ⟨t, annotates, hname⟩ | ⟨child, hchild, hname⟩
      · exact ⟨e, t, .root, annotates, hname⟩
      · obtain ⟨node, t, below, annotates, hname⟩ := ih child hchild hname
        exact ⟨node, t, .child hchild below, annotates, hname⟩
  · obtain ⟨node, t, below, annotates, hname⟩ := h
    exact below.names (mem_names_iff.mpr (.inl ⟨t, annotates, hname⟩))

/-- Occurrences, the variables of types and those of trees agree. A variable occurs in a type just
if it is listed there. The variables of a tree are those of the fields of its root, whatever the
kind of node, and so they are those that occur in an annotation of one of its nodes. -/
theorem names_iff_occurs :
    (∀ (t : Ty) (name : String), t.occurs name = true ↔ name ∈ t.names) ∧
      (∀ e : Exp, e.names = e.fields.flatMap Field.names) ∧
      ∀ (e : Exp) (name : String), name ∈ e.names ↔
        ∃ node t, NodeOf node e ∧ Annotates t node ∧ t.occurs name = true := by
  refine ⟨fun t name => Ty.occurs_iff_mem_names, names_eq_fields, fun e name => ?_⟩
  simp only [Ty.occurs_iff_mem_names]
  exact mem_names_iff_annotated

end AnnotatedScheme.Exp
