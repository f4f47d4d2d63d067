import AnnotatedScheme.Proofs.Exp.Shape
import AnnotatedScheme.Proofs.Typing.Free

/-!
# A value in the place of a variable

`Exp.inline x v e` is `e` with `v` for every free occurrence of the variable `x`. Nothing is renamed in
it, so `v` comes under the binders around these occurrences; `e.boundAround x` are the variables that
they bind.

* `Exp.inline_eq_self`   nothing changes where `x` is not free;
* `Exp.boundFrame?_inlineAll`, `Exp.lambdaFrame?_inlineAll`  the frames of a form stay as they are;
* `Exp.values_inlineAll`  the values of bindings are those with `v` in them;
* `Exp.ofExp?_inline`    no operand comes to stand behind `car`, `cdr` or `cons`, unless `v` is one.
-/

namespace AnnotatedScheme.Exp

/-! ## inlining -/

section

variable (x : String) (v : Exp)

mutual
def inline : Exp → Exp
  | .var name => if name = x then v else .var name
  | .conditional test consequent alternative =>
    .conditional test.inline consequent.inline alternative.inline
  | .lambda params result body =>
    .lambda params result (if x ∈ params.filterMap variableName? then body else inlineAll body)
  | .app operator operands => .app operator.inline (inlineAll operands)
  | .letIn bindings body =>
    .letIn (inlineAll bindings) (if x ∈ boundNames bindings then body else inlineAll body)
  | .letrec bindings body =>
    if x ∈ boundNames bindings then .letrec bindings body
    else .letrec (inlineAll bindings) (inlineAll body)
  | .define d value => .define d value.inline
  | .program forms => .program (inlineAll forms)
  | .binding d value => .binding d value.inline
  | e => e

def inlineAll : List Exp → List Exp
  | [] => []
  | e :: rest => e.inline :: inlineAll rest
end

end

section

variable (x : String)

/-- the variables bound by a scope and inside of it, if `x` is free there and not bound by it -/
def around (bound free inside : List String) : List String :=
  if x ∈ free.filter (· ∉ bound) then bound ++ inside else []

mutual
/-- the variables that are bound around the free occurrences of `x` -/
def boundAround : Exp → List String
  | .conditional test consequent alternative =>
    test.boundAround ++ consequent.boundAround ++ alternative.boundAround
  | .lambda params _ body =>
    around x (params.filterMap variableName?) (freeAll body) (boundAroundAll body)
  | .app operator operands => operator.boundAround ++ boundAroundAll operands
  | .letIn bindings body =>
    boundAroundAll bindings ++
      around x (boundNames bindings) (freeAll body) (boundAroundAll body)
  | .letrec bindings body =>
    around x (boundNames bindings) (freeAll bindings ++ freeAll body)
      (boundAroundAll bindings ++ boundAroundAll body)
  | .define _ value => value.boundAround
  | .program forms => boundAroundAll forms
  | .binding _ value => value.boundAround
  | _ => []

def boundAroundAll : List Exp → List String
  | [] => []
  | e :: rest => e.boundAround ++ boundAroundAll rest
end

end

variable {x y : String} {v e : Exp} {es bindings : List Exp}

theorem inlineAll_eq_map (es : List Exp) : inlineAll x v es = es.map (inline x v) := by
  induction es with
  | nil => rfl
  | cons e rest ih => rw [inlineAll, ih, List.map_cons]

theorem mem_boundAroundAll : y ∈ boundAroundAll x es ↔ ∃ e ∈ es, y ∈ e.boundAround x := by
  induction es with
  | nil => simp [boundAroundAll]
  | cons e rest ih => simp [boundAroundAll, ih]

theorem mem_around {bound free inside : List String} (hx : x ∈ free) (hbound : x ∉ bound) :
    y ∈ around x bound free inside ↔ y ∈ bound ∨ y ∈ inside := by
  have hmem : x ∈ free.filter (· ∉ bound) := List.mem_filter.mpr ⟨hx, decide_eq_true hbound⟩
  rw [around, if_pos hmem, List.mem_append]

/-! ### where the variable is not free -/

theorem map_inline_eq_self (each : ∀ e ∈ es, x ∉ e.free → inline x v e = e) (h : x ∉ freeAll es) :
    es.map (inline x v) = es := by
  have hid : es.map (inline x v) = es.map id :=
    List.map_congr_left fun e he => each e he fun hx => h (mem_freeAll.mpr ⟨e, he, hx⟩)
  rw [hid, List.map_id]

/-- under binders, the variable is bound by them or not free in what they bind it in -/
theorem mem_of_not_mem_filter {bound free : List String} (h : x ∉ free.filter (· ∉ bound))
    (hbound : x ∉ bound) : x ∉ free :=
  fun hx => h (List.mem_filter.mpr ⟨hx, decide_eq_true hbound⟩)

theorem inline_eq_self (h : x ∉ e.free) : inline x v e = e := by
  induction e using Exp.induct with
  | var name =>
    have hne : name ≠ x := fun heq => h (heq ▸ List.mem_cons_self)
    rw [inline, if_neg hne]
  | conditional test consequent alternative iht ihc iha =>
    rw [free, List.mem_append, List.mem_append, not_or, not_or] at h
    rw [inline, iht h.1.1, ihc h.1.2, iha h.2]
  | lambda params result body _ ih =>
    rw [inline, inlineAll_eq_map]
    split
    · rfl
    · rename_i hbound
      rw [map_inline_eq_self ih (mem_of_not_mem_filter h hbound)]
  | app operator operands iho iha =>
    rw [free, List.mem_append, not_or] at h
    rw [inline, inlineAll_eq_map, iho h.1, map_inline_eq_self iha h.2]
  | letIn bindings body ihs ihb =>
    rw [free, List.mem_append, not_or] at h
    rw [inline, inlineAll_eq_map, inlineAll_eq_map, map_inline_eq_self ihs h.1]
    split
    · rfl
    · rename_i hbound
      rw [map_inline_eq_self ihb (mem_of_not_mem_filter h.2 hbound)]
  | letrec bindings body ihs ihb =>
    rw [inline, inlineAll_eq_map, inlineAll_eq_map]
    split
    · rfl
    · rename_i hbound
      have hfree := mem_of_not_mem_filter h hbound
      rw [List.mem_append, not_or] at hfree
      rw [map_inline_eq_self ihs hfree.1, map_inline_eq_self ihb hfree.2]
  | define d value _ ih | binding d value _ ih => rw [inline, ih h]
  | program forms ih => rw [inline, inlineAll_eq_map, map_inline_eq_self ih h]
  | _ => rfl

/-! ### forms -/

theorem ofExp?_inline (hv : PairOperator.ofExp? v = none) (operator : Exp) :
    PairOperator.ofExp? (inline x v operator) = PairOperator.ofExp? operator := by
  cases operator with
  | var name =>
    rw [inline]
    split
    · exact hv
    · rfl
  | letrec bindings body =>
    rw [inline]
    split <;> rfl
  | _ => rfl

theorem var_or_not (e : Exp) : (∃ name, e = .var name) ∨ ∀ name, e ≠ .var name := by
  cases e with
  | var name => exact .inl ⟨name, rfl⟩
  | _ => exact .inr nofun

theorem inline_ne_primitive (hvar : ∀ name, e ≠ .var name) (h : ∀ name, e ≠ .primitive name)
    (name : String) : inline x v e ≠ .primitive name := by
  cases e with
  | var name => exact absurd rfl (hvar name)
  | primitive name => exact absurd rfl (h name)
  | letrec bindings body =>
    rw [inline]
    split <;> exact Exp.noConfusion
  | _ => exact Exp.noConfusion

theorem bound?_inline {b d value : Exp} (h : b.bound? = some (d, value)) :
    (inline x v b).bound? = some (d, inline x v value) := by
  cases b with
  | binding | define =>
    obtain ⟨rfl, rfl⟩ := Prod.mk.inj (Option.some.inj h)
    rfl
  | _ => cases h

theorem inlineAll_append (es es' : List Exp) :
    inlineAll x v (es ++ es') = inlineAll x v es ++ inlineAll x v es' := by
  rw [inlineAll_eq_map, inlineAll_eq_map, inlineAll_eq_map, List.map_append]

theorem values_inlineAll (h : ∀ b ∈ bindings, ∃ p, b.bound? = some p) :
    values (inlineAll x v bindings) = inlineAll x v (values bindings) := by
  induction bindings with
  | nil => rfl
  | cons b rest ih =>
    obtain ⟨⟨⟨d, value⟩, hb⟩, hrest⟩ := List.forall_mem_cons.mp h
    rw [inlineAll, values_cons (bound?_inline hb), values_cons hb, ih hrest, inlineAll]

theorem bound?_of_boundFrame? {frame : Frame} (h : boundFrame? bindings = some frame) :
    ∀ b ∈ bindings, ∃ p, b.bound? = some p := by
  induction bindings generalizing frame with
  | nil => exact List.forall_mem_nil _
  | cons b rest ih =>
    obtain ⟨d, value, -, tail, hb, -, hrest, -⟩ := boundFrame?_cons_eq_some_iff.mp h
    exact List.forall_mem_cons.mpr ⟨⟨_, hb⟩, ih hrest⟩

theorem boundFrame?_inlineAll {frame : Frame} (h : boundFrame? bindings = some frame) :
    boundFrame? (inlineAll x v bindings) = some frame := by
  induction bindings generalizing frame with
  | nil => exact h
  | cons b rest ih =>
    obtain ⟨d, value, entry, tail, hb, hd, hrest, rfl⟩ := boundFrame?_cons_eq_some_iff.mp h
    exact boundFrame?_cons_eq_some_iff.mpr
      ⟨d, _, entry, tail, bound?_inline hb, hd, ih hrest, rfl⟩

theorem bound?_of_lambdaFrame? {frame : Frame} (h : lambdaFrame? bindings = some frame) :
    ∀ b ∈ bindings, ∃ p, b.bound? = some p := by
  induction bindings generalizing frame with
  | nil => exact List.forall_mem_nil _
  | cons b rest ih =>
    obtain ⟨d, value, -, tail, hb, -, hrest, -⟩ := lambdaFrame?_cons_eq_some_iff.mp h
    exact List.forall_mem_cons.mpr ⟨⟨_, hb⟩, ih hrest⟩

theorem lambdaType?_inline {value : Exp} {t : Ty} (h : value.lambdaType? = some t) :
    (inline x v value).lambdaType? = some t := by
  cases value with
  | lambda => exact h
  | _ => cases h

theorem map_lambdaType?_inlineAll {types : List Ty}
    (h : es.map lambdaType? = types.map some) :
    (inlineAll x v es).map lambdaType? = types.map some := by
  rw [← h, inlineAll_eq_map, List.map_map]
  refine List.map_congr_left fun e he => ?_
  obtain ⟨t, -, ht⟩ := exists_of_map_eq h.symm he
  show (inline x v e).lambdaType? = e.lambdaType?
  rw [← ht]
  exact lambdaType?_inline ht.symm

theorem lambdaFrame?_inlineAll {frame : Frame} (h : lambdaFrame? bindings = some frame) :
    lambdaFrame? (inlineAll x v bindings) = some frame := by
  induction bindings generalizing frame with
  | nil => exact h
  | cons b rest ih =>
    obtain ⟨d, value, t, tail, hb, ht, hrest, rfl⟩ := lambdaFrame?_cons_eq_some_iff.mp h
    exact lambdaFrame?_cons_eq_some_iff.mpr
      ⟨d, _, t, tail, bound?_inline hb, lambdaType?_inline ht, ih hrest, rfl⟩

/-! ### binders -/

theorem boundAround_of_bound? {b d value : Exp} (h : b.bound? = some (d, value)) :
    b.boundAround x = value.boundAround x := by
  cases b with
  | binding | define =>
    obtain ⟨rfl, rfl⟩ := Prod.mk.inj (Option.some.inj h)
    rfl
  | _ => cases h

theorem mem_boundAroundAll_values (h : y ∈ boundAroundAll x (values bindings)) :
    y ∈ boundAroundAll x bindings := by
  obtain ⟨value, hvalue, hy⟩ := mem_boundAroundAll.mp h
  obtain ⟨b, hb, d, hbound⟩ := mem_values_iff.mp hvalue
  exact mem_boundAroundAll.mpr ⟨b, hb, boundAround_of_bound? hbound ▸ hy⟩

theorem mem_boundAroundAll_append {es' : List Exp} :
    y ∈ boundAroundAll x (es ++ es') ↔ y ∈ boundAroundAll x es ∨ y ∈ boundAroundAll x es' := by
  simp only [mem_boundAroundAll, List.mem_append, or_and_right, exists_or]

theorem mem_around_mono {bound free free' inside inside' : List String}
    (hfree : x ∈ free → x ∈ free') (hinside : y ∈ inside → y ∈ inside')
    (h : y ∈ around x bound free inside) : y ∈ around x bound free' inside' := by
  by_cases hx : x ∈ free.filter (· ∉ bound)
  · obtain ⟨hx, hbound⟩ := List.mem_filter.mp hx
    have hbound : x ∉ bound := of_decide_eq_true hbound
    exact (mem_around (hfree hx) hbound).mpr (((mem_around hx hbound).mp h).imp_right hinside)
  · rw [around, if_neg hx] at h
    exact absurd h List.not_mem_nil

/-- the scope of a letrec has its values and its body in it -/
theorem mem_boundAround_letrec {body : List Exp}
    (h : y ∈ around x (boundNames bindings) (freeAll (values bindings ++ body))
      (boundAroundAll x (values bindings ++ body))) :
    y ∈ (Exp.letrec bindings body).boundAround x := by
  refine mem_around_mono (fun hx => ?_) (fun hy => ?_) h
  · exact List.mem_append.mpr ((mem_freeAll_append.mp hx).imp_left mem_freeAll_values)
  · exact List.mem_append.mpr
      ((mem_boundAroundAll_append.mp hy).imp_left mem_boundAroundAll_values)

end AnnotatedScheme.Exp
