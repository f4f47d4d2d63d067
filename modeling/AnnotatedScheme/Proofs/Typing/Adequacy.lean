import AnnotatedScheme.Proofs.Exp.Builder
import AnnotatedScheme.Proofs.Typing.Judgement
import AnnotatedScheme.Proofs.Typing.Ordinary

/-!
# The checker decides the judgement

The checker gives an expression exactly the type that the rules give it (`typeOf_iff_hasType`), if
the primitives in it have types without variables (`Exp.IsMonomorphic`). Such a check draws no
names, so it leaves the supply as it was: this is what makes `IsDecided`, the statement for one
expression, pass from the parts to the whole. The rules are gone through by the grammar
(`Exp.IsForm`), with one lemma for each form that has parts.
-/

namespace AnnotatedScheme

/-! ## lookup and data -/

theorem Env.lookup_eq_some_iff {env : Env} {x : String} {t : Ty} :
    env.lookup x = some t ↔ env.Resolves x t := by
  have hfirst : ∀ frames : List Frame,
      frames.findSome? (List.lookup x) = frames.flatten.lookup x := by
    intro frames
    induction frames with
    | nil => rfl
    | cons frame rest ih =>
      rw [List.flatten_cons, List.lookup_append, List.findSome?_cons, ih]
      cases frame.lookup x <;> rfl
  have hnames : ∀ front : Frame, (∀ entry ∈ front, (x != entry.1) = true) ↔
      ∀ entry ∈ front, entry.1 ≠ x := by
    intro front
    exact forall₂_congr fun entry _ => by rw [bne_iff_ne, ne_comm]
  rw [lookup, hfirst, Option.filter_eq_some_iff, List.lookup_eq_some_iff, Resolves, and_comm]
  refine and_congr (by simp) ?_
  exact exists_congr fun front => exists_congr fun back => and_congr_right' (hnames front)

theorem typeInside_eq_ok_iff {value : Value} {t : Ty} :
    value.typeInside = .ok t ↔ DatumType value t := by
  induction value generalizing t with
  | atom value =>
    refine ⟨fun h => ?_, fun h => ?_⟩
    · obtain rfl := Except.ok.inj h
      cases value with
      | number value => exact .number value
      | boolean value => exact .boolean value
      | string content => exact .string content
      | symbol name => exact .symbol name
    · cases h with
      | number | boolean | string | symbol => rfl
  | empty =>
    refine ⟨fun h => ?_, fun h => ?_⟩
    · obtain rfl := Except.ok.inj h
      exact .empty
    · cases h with
      | empty => rfl
  | cell first second ihf ihs =>
    simp only [Value.typeInside, Except.bind_eq_ok_iff, Except.pure_eq_ok_iff, ihf, ihs]
    refine ⟨fun h => ?_, fun h => ?_⟩
    · obtain ⟨t, hfirst, u, hsecond, rfl⟩ := h
      exact .cell hfirst hsecond
    · cases h with
      | cell hfirst hsecond => exact ⟨_, hfirst, _, hsecond, rfl⟩
  | gap =>
    refine ⟨fun h => ?_, fun h => ?_⟩
    · cases h
    · cases h

theorem typeQuoted_eq_ok_iff {value : Value} {t : Ty} :
    value.typeQuoted = .ok t ↔ QuotedType value t := by
  cases value with
  | cell first second =>
    rw [Value.typeQuoted, typeInside_eq_ok_iff]
    refine ⟨.cell, fun h => ?_⟩
    cases h with
    | cell h => exact h
    | other h => exact absurd rfl (h first second)
  | _ =>
    refine ⟨fun h => ?_, fun h => ?_⟩
    · obtain rfl := Except.ok.inj h
      exact .other nofun
    · cases h with
      | other => rfl

/-- The primitives that have types without variables are those of the table. -/
theorem signature?_eq_some_iff {name : String} {t : Ty} :
    Primitive.signature? name = some t ∧ t.names = [] ↔ PrimitiveType name t := by
  refine ⟨fun h => ?_, fun h => ?_⟩
  · obtain ⟨hsig, hnames⟩ := h
    have hall : ∀ p ∈ Primitive.signatures, p.2.names = [] →
        p.1 ∈ ["+", "-", "*", "/"] ∧ p.2 = .proc [.number, .number] .number ∨
        p.1 ∈ [">", "<", "="] ∧ p.2 = .proc [.number, .number] .boolean ∨
        p.1 ∈ ["and", "or"] ∧ p.2 = .proc [.boolean, .boolean] .boolean ∨
        p.1 = "not" ∧ p.2 = .proc [.boolean] .boolean ∨
        p.1 = "newline" ∧ p.2 = .proc [] .void := by decide
    have hmem : (name, t) ∈ Primitive.signatures := mem_of_lookup_eq_some hsig
    rcases hall (name, t) hmem hnames with
      ⟨h, rfl⟩ | ⟨h, rfl⟩ | ⟨h, rfl⟩ | ⟨rfl, rfl⟩ | ⟨rfl, rfl⟩
    · exact .arithmetic h
    · exact .comparison h
    · exact .connective h
    · exact .not
    · exact .newline
  · cases h with
    | arithmetic h =>
      simp only [List.mem_cons, List.not_mem_nil, or_false] at h
      rcases h with rfl | rfl | rfl | rfl <;> exact ⟨rfl, rfl⟩
    | comparison h =>
      simp only [List.mem_cons, List.not_mem_nil, or_false] at h
      rcases h with rfl | rfl | rfl <;> exact ⟨rfl, rfl⟩
    | connective h =>
      simp only [List.mem_cons, List.not_mem_nil, or_false] at h
      rcases h with rfl | rfl <;> exact ⟨rfl, rfl⟩
    | not | newline => exact ⟨rfl, rfl⟩

/-! ## inversion -/

theorem decls_inj {frame frame' : Frame} (h : Exp.decls frame = Exp.decls frame') :
    frame = frame' := by
  refine (List.map_inj_right ?_).mp h
  rintro ⟨x, t⟩ ⟨x', t'⟩ h
  obtain ⟨rfl, rfl⟩ := Exp.decl.inj h
  rfl

theorem Bound.map_binding_inj {bs bs' : List Bound}
    (h : bs.map Bound.binding = bs'.map Bound.binding) : bs = bs' := by
  have hinj : ∀ b b' : Bound, b.binding = b'.binding → b = b' := by
    intro b b' h
    cases b
    cases b'
    cases h
    rfl
  exact (List.map_inj_right hinj).mp h

theorem Procedure.map_bound_inj {ps ps' : List Procedure}
    (h : ps.map Procedure.bound = ps'.map Procedure.bound) : ps = ps' := by
  refine (List.map_inj_right ?_).mp h
  rintro ⟨x, t, params, result, body⟩ ⟨x', t', params', result', body'⟩ h
  obtain ⟨rfl, rfl, hlambda⟩ := (Bound.mk.injEq ..).mp h
  obtain ⟨hparams, rfl, rfl⟩ := Exp.lambda.inj hlambda
  obtain rfl := decls_inj hparams
  rfl

section

variable {env : Env} {t : Ty}

theorem hasType_lambda_iff {params : Frame} {result : Ty} {body : List Exp} :
    HasType env (.lambda (Exp.decls params) result body) t ↔
      t = .proc (params.map Prod.snd) result ∧ HasBody (env.extend params) body result := by
  refine ⟨fun h => ?_, fun h => ?_⟩
  · generalize hdecls : Exp.decls params = decls at h
    cases h with
    | lambda hbody =>
      obtain rfl := decls_inj hdecls
      exact ⟨rfl, hbody⟩
  · obtain ⟨rfl, hbody⟩ := h
    exact .lambda hbody

theorem hasType_letIn_iff {bounds : List Bound} {body : List Exp} :
    HasType env (.letIn (bounds.map Bound.binding) body) t ↔
      HasTypes env (bounds.map Bound.value) (bounds.map Bound.type) ∧
        HasBody (env.extend (bounds.map Bound.declaration)) body t := by
  refine ⟨fun h => ?_, fun h => ?_⟩
  · generalize hbindings : bounds.map Bound.binding = bindings at h
    cases h with
    | letIn hvalues hbody =>
      obtain rfl := Bound.map_binding_inj hbindings
      exact ⟨hvalues, hbody⟩
  · obtain ⟨hvalues, hbody⟩ := h
    exact .letIn hvalues hbody

theorem hasType_letrec_iff {ps : List Procedure} {body : List Exp} :
    HasType env (.letrec ((ps.map Procedure.bound).map Bound.binding) body) t ↔
      (∀ p ∈ ps, HasBody ((env.extend (Procedure.frame ps)).extend p.params) p.body p.result) ∧
        HasBody (env.extend (Procedure.frame ps)) body t := by
  refine ⟨fun h => ?_, fun h => ?_⟩
  · generalize hbindings : (ps.map Procedure.bound).map Bound.binding = bindings at h
    cases h with
    | letrec hbodies hbody =>
      obtain rfl := Procedure.map_bound_inj (Bound.map_binding_inj hbindings)
      exact ⟨hbodies, hbody⟩
  · obtain ⟨hbodies, hbody⟩ := h
    exact .letrec hbodies hbody

end

theorem Supply.rename_of_names_eq_nil {t : Ty} (h : t.names = []) (s : Supply) :
    rename t s = (t, s) := by
  have hsame : ∀ f, t.substitute f = t := by
    intro f
    induction t using Ty.induct with
    | var name => cases h
    | proc params result ihp ihr =>
      obtain ⟨hparams, hresult⟩ := List.append_eq_nil_iff.mp h
      rw [Ty.namesAll_eq_flatMap, List.flatMap_eq_nil_iff] at hparams
      have hsubstitute : params.map (Ty.substitute f) = params.map id :=
        List.map_congr_left fun p hp => ihp p hp (hparams p hp)
      rw [Ty.substitute, ihr hresult, Ty.substituteAll_eq_map, hsubstitute, List.map_id]
    | pair first second ihf ihs =>
      obtain ⟨hfirst, hsecond⟩ := List.append_eq_nil_iff.mp h
      rw [Ty.substitute, ihf hfirst, ihs hsecond]
    | _ => rfl
  rw [rename, h]
  exact Prod.ext (hsame _) rfl

namespace Exp

/-- a primitive with type variables occurs in no other place than as an operator `car`, `cdr` or
`cons`, which is not among the parts of an application -/
def IsMonomorphic (e : Exp) : Prop :=
  ∀ name, Within (.primitive name) e → ∀ t, Primitive.signature? name = some t → t.names = []

theorem IsMonomorphic.part {e part : Exp} (h : e.IsMonomorphic) (hpart : part ∈ e.parts) :
    part.IsMonomorphic :=
  fun name within => h name (.part hpart within)

theorem IsForm.part {Q : String → Prop} {e part : Exp} (h : e.IsForm Q) (hpart : part ∈ e.parts) :
    part.IsExpression Q := by
  cases h with
  | define _ hvalue => exact List.mem_singleton.mp hpart ▸ hvalue
  | expression h =>
    cases h with
    | conditional htest hconsequent halternative =>
      simp only [parts, List.mem_cons, List.not_mem_nil, or_false] at hpart
      rcases hpart with rfl | rfl | rfl
      · exact htest
      · exact hconsequent
      · exact halternative
    | lambda _ _ _ hbody => exact hbody part hpart
    | app hoperator hoperands =>
      rcases mem_parts_app hpart with rfl | hpart
      · exact hoperator
      · exact hoperands part hpart
    | letIn _ hvalues _ hbody | letrec _ hvalues _ hbody =>
      rw [parts, values_map_binding] at hpart
      rcases List.mem_append.mp hpart with hpart | hpart
      · obtain ⟨b, hb, rfl⟩ := List.mem_map.mp hpart
        exact hvalues b hb
      · exact hbody part hpart
    | _ => exact absurd hpart List.not_mem_nil

end Exp

/-! ## sequences -/

section

open Exp

variable {es : List Exp} (each : ∀ e ∈ es, ∀ env s t s',
  e.typeOf env s = .ok t s' ↔ HasType env e t ∧ s = s')
include each

omit each in
theorem eq_nil_of_hasTypes_nil {env : Env} (h : HasTypes env es []) : es = [] := by
  cases h with
  | nil => rfl

omit each in
theorem exists_of_hasTypes_cons {env : Env} {t : Ty} {ts : List Ty}
    (h : HasTypes env es (t :: ts)) :
    ∃ e rest, es = e :: rest ∧ HasType env e t ∧ HasTypes env rest ts := by
  cases h with
  | cons head tail => exact ⟨_, _, rfl, head, tail⟩

omit each in
theorem hasTypes_cons_iff {env : Env} {e : Exp} {t : Ty} {ts : List Ty} :
    HasTypes env (e :: es) (t :: ts) ↔ HasType env e t ∧ HasTypes env es ts := by
  refine ⟨fun h => ?_, fun h => .cons h.1 h.2⟩
  cases h with
  | cons head tail => exact ⟨head, tail⟩

theorem runs_iff_hasTypes {env : Env} {s s' : Supply} {ts : List Ty} :
    Runs (inEnv env es) s ts s' ↔ HasTypes env es ts ∧ s = s' := by
  induction es generalizing ts s with
  | nil =>
    rw [inEnv, List.map_nil, Runs.nil_iff]
    refine and_congr_left' ⟨fun h => h ▸ .nil, fun h => ?_⟩
    cases h
    rfl
  | cons e rest ih =>
    have hrest : ∀ e ∈ rest, ∀ env s t s', e.typeOf env s = .ok t s' ↔ HasType env e t ∧ s = s' :=
      fun e he => each e (List.mem_cons_of_mem _ he)
    rw [inEnv, List.map_cons, Runs.cons_left_iff]
    refine ⟨fun h => ?_, fun h => ?_⟩
    · obtain ⟨t, ts, s₁, rfl, head, tail⟩ := h
      obtain ⟨ht, rfl⟩ := (each e List.mem_cons_self env s t s₁).mp head
      obtain ⟨hts, rfl⟩ := (ih hrest).mp tail
      exact ⟨.cons ht hts, rfl⟩
    · obtain ⟨h, rfl⟩ := h
      cases h with
      | @cons _ _ _ t ts ht hts =>
        have head := (each e List.mem_cons_self env s t s).mpr ⟨ht, rfl⟩
        have tail : Runs (inEnv env rest) s ts s := (ih hrest).mpr ⟨hts, rfl⟩
        exact ⟨t, ts, s, rfl, head, tail⟩

omit each in
theorem hasBody_iff {env : Env} {t : Ty} :
    HasBody env es t ↔ ∃ ts, HasTypes env es ts ∧ ts.getLast? = some t := by
  induction es with
  | nil =>
    refine ⟨fun h => ?_, fun h => ?_⟩
    · cases h
    · obtain ⟨ts, hts, hlast⟩ := h
      cases hts with
      | nil => cases hlast
  | cons e rest ih =>
    refine ⟨fun h => ?_, fun h => ?_⟩
    · cases h with
      | last h => exact ⟨[t], .cons h .nil, rfl⟩
      | cons head tail =>
        obtain ⟨ts, hts, hlast⟩ := ih.mp tail
        exact ⟨_ :: ts, .cons head hts, by rw [List.getLast?_cons, hlast]; rfl⟩
    · obtain ⟨ts, hts, hlast⟩ := h
      cases hts with
      | cons head tail =>
        cases tail with
        | nil =>
          obtain rfl := Option.some.inj hlast
          exact .last head
        | cons head' tail' =>
          rw [List.getLast?_cons_cons] at hlast
          exact .cons head (ih.mpr ⟨_, .cons head' tail', hlast⟩)

theorem runs_body_iff {env : Env} {s s' : Supply} {t : Ty} :
    (∃ ts, Runs (inEnv env es) s ts s' ∧ ts.getLast? = some t) ↔ HasBody env es t ∧ s = s' := by
  simp only [runs_iff_hasTypes each, hasBody_iff, and_right_comm (b := s = s'), exists_and_right]

end

/-! ## letrec -/

namespace Procedure

open Exp

theorem lambdaType?_lambda (p : Procedure) : p.lambda.lambdaType? = some p.type := by
  rw [lambda, lambdaType?, frame?_decls]
  rfl

theorem map_lambdaType?_lambda (ps : List Procedure) :
    (ps.map lambda).map lambdaType? = (ps.map type).map some := by
  rw [List.map_map, List.map_map]
  exact List.map_congr_left fun p _ => p.lambdaType?_lambda

theorem map_value_map_bound (ps : List Procedure) :
    (ps.map bound).map Bound.value = ps.map lambda :=
  List.map_map

theorem lambdaFrame?_map_bound (ps : List Procedure) :
    lambdaFrame? ((ps.map bound).map Bound.binding) = some (frame ps) := by
  induction ps with
  | nil => rfl
  | cons p rest ih =>
    have htype := p.lambdaType?_lambda
    exact lambdaFrame?_cons_eq_some_iff.mpr ⟨_, _, p.type, frame rest, rfl, htype, ih, rfl⟩

/-- the bindings of a letrec that has a frame bind lambdas -/
theorem exists_of_lambdaFrame? {Q : String → Prop} {bounds : List Bound}
    (hvalues : ∀ b ∈ bounds, b.value.IsExpression Q) {f : Frame}
    (h : lambdaFrame? (bounds.map Bound.binding) = some f) :
    ∃ ps : List Procedure, bounds = ps.map bound := by
  induction bounds generalizing f with
  | nil => exact ⟨[], rfl⟩
  | cons b rest ih =>
    obtain ⟨d, value, t, tail, hb, ht, hrest, -⟩ := lambdaFrame?_cons_eq_some_iff.mp h
    obtain ⟨rfl, rfl⟩ := Prod.mk.inj (Option.some.inj hb)
    obtain ⟨ps, rfl⟩ := ih (fun b hb => hvalues b (List.mem_cons_of_mem _ hb)) hrest
    obtain ⟨name, declared, value⟩ := b
    cases hvalues _ List.mem_cons_self with
    | @lambda params result body => exact ⟨⟨name, declared, params, result, body⟩ :: ps, rfl⟩
    | _ => cases ht

theorem exists_of_hasType_letrec {env : Env} {bounds : List Bound} {body : List Exp} {t : Ty}
    (h : HasType env (.letrec (bounds.map Bound.binding) body) t) :
    ∃ ps : List Procedure, bounds = ps.map bound := by
  generalize hbindings : bounds.map Bound.binding = bindings at h
  cases h with
  | @letrec _ ps => exact ⟨ps, Bound.map_binding_inj hbindings⟩

theorem hasTypes_iff {env : Env} {ps : List Procedure} {ts : List Ty} :
    HasTypes env (ps.map lambda) ts ↔
      ts = ps.map type ∧ ∀ p ∈ ps, HasBody (env.extend p.params) p.body p.result := by
  induction ps generalizing ts with
  | nil =>
    refine ⟨fun h => ?_, fun h => ?_⟩
    · cases h with
      | nil => exact ⟨rfl, nofun⟩
    · obtain ⟨rfl, -⟩ := h
      exact .nil
  | cons p rest ih =>
    rw [List.map_cons, List.map_cons, List.forall_mem_cons]
    refine ⟨fun h => ?_, fun h => ?_⟩
    · cases h with
      | cons head tail =>
        obtain ⟨rfl, hbody⟩ := hasType_lambda_iff.mp head
        obtain ⟨rfl, hbodies⟩ := ih.mp tail
        exact ⟨rfl, hbody, hbodies⟩
    · obtain ⟨rfl, hbody, hbodies⟩ := h
      have head := hasType_lambda_iff.mpr ⟨rfl, hbody⟩
      exact .cons head (ih.mpr ⟨rfl, hbodies⟩)

end Procedure

/-! ## the induction -/

open Exp Check

section

variable {Q : String → Prop} {env : Env} {s s' : Supply} {t : Ty}

/-- what is to be shown of each part of an expression -/
def IsDecided (e : Exp) : Prop :=
  ∀ (env : Env) (s : Supply) (t : Ty) (s' : Supply),
    e.typeOf env s = .ok t s' ↔ HasType env e t ∧ s = s'

theorem isDecided_conditional {test consequent alternative : Exp}
    (each : ∀ e ∈ [test, consequent, alternative], IsDecided e) :
    IsDecided (.conditional test consequent alternative) := by
  intro env s t s'
  rw [typeOf_conditional_eq_ok_iff, runs_iff_hasTypes each]
  refine and_congr_left' ⟨fun h => ?_, fun h => ?_⟩
  · obtain ⟨htest, h⟩ := hasTypes_cons_iff.mp h
    obtain ⟨hconsequent, h⟩ := hasTypes_cons_iff.mp h
    obtain ⟨halternative, -⟩ := hasTypes_cons_iff.mp h
    exact .conditional htest hconsequent halternative
  · cases h with
    | conditional htest hconsequent halternative =>
      exact .cons htest (.cons hconsequent (.cons halternative .nil))

theorem isDecided_lambda {params : Frame} {result : Ty} {body : List Exp}
    (each : ∀ e ∈ body, IsDecided e) : IsDecided (.lambda (decls params) result body) := by
  intro env s t s'
  rw [typeOf_lambda_eq_ok_iff, frame?_decls, hasType_lambda_iff]
  simp only [typeOfBody_eq_ok_iff, runs_body_iff each, Option.some.injEq, exists_eq_left',
    and_assoc]

theorem isDecided_app {operator : Exp} {operands : List Exp}
    (hop : PairOperator.ofExp? operator = none)
    (each : ∀ e ∈ operator :: operands, IsDecided e) : IsDecided (.app operator operands) := by
  intro env s t s'
  rw [typeOf_app_eq_ok_iff_of_none hop]
  simp only [runs_iff_hasTypes each, exists_and_right]
  have hname := PairOperator.ofExp?_eq_none_iff.mp hop
  refine and_congr_left' ⟨fun h => ?_, fun h => ?_⟩
  · obtain ⟨params, htypes⟩ := h
    obtain ⟨hoperator, hoperands⟩ := hasTypes_cons_iff.mp htypes
    exact .app hname hoperator hoperands
  · cases h with
    | app _ hoperator hoperands => exact ⟨_, .cons hoperator hoperands⟩
    | car | cdr | cons => exact absurd rfl (hname _ (by decide))

/-- the operators with rules of their own -/
theorem isDecided_pairOperator {op : PairOperator} {operands : List Exp}
    (each : ∀ e ∈ operands, IsDecided e) : IsDecided (.app (.primitive op.name) operands) := by
  intro env s t s'
  have hop : PairOperator.ofExp? (.primitive op.name) = some op :=
    PairOperator.ofExp?_eq_some_iff.mpr rfl
  rw [typeOf_app_eq_ok_iff, checks, hop]
  simp only [Option.isSome_some, if_true, runs_iff_hasTypes each]
  refine ⟨fun h => ?_, fun h => ?_⟩
  · obtain ⟨_, ⟨htypes, rfl⟩, hrule⟩ := h
    refine ⟨?_, rfl⟩
    cases hrule with
    | app h => rw [hop] at h; cases h
    | cons h =>
      obtain rfl := Option.some.inj (hop.symm.trans h)
      obtain ⟨a, rest, rfl, ha, htypes⟩ := exists_of_hasTypes_cons htypes
      obtain ⟨b, rest, rfl, hb, htypes⟩ := exists_of_hasTypes_cons htypes
      obtain rfl := eq_nil_of_hasTypes_nil htypes
      exact .cons ha hb
    | car h =>
      obtain rfl := Option.some.inj (hop.symm.trans h)
      obtain ⟨operand, rest, rfl, hoperand, htypes⟩ := exists_of_hasTypes_cons htypes
      obtain rfl := eq_nil_of_hasTypes_nil htypes
      exact .car hoperand
    | cdr h =>
      obtain rfl := Option.some.inj (hop.symm.trans h)
      obtain ⟨operand, rest, rfl, hoperand, htypes⟩ := exists_of_hasTypes_cons htypes
      obtain rfl := eq_nil_of_hasTypes_nil htypes
      exact .cdr hoperand
  · obtain ⟨h, rfl⟩ := h
    have hmem : op.name ∈ ["car", "cdr", "cons"] := by cases op <;> decide
    -- the name is not a literal, so the rules are told apart by their literals first
    generalize hname : op.name = name at h hmem
    cases h with
    | app h => exact absurd rfl (h name hmem)
    | car h => exact ⟨_, ⟨.cons h .nil, rfl⟩, .car rfl t _⟩
    | cdr h => exact ⟨_, ⟨.cons h .nil, rfl⟩, .cdr rfl _ t⟩
    | cons ha hb => exact ⟨_, ⟨.cons ha (.cons hb .nil), rfl⟩, .cons rfl _ _⟩

theorem isDecided_letIn {bounds : List Bound} {body : List Exp}
    (eachValue : ∀ e ∈ bounds.map Bound.value, IsDecided e) (each : ∀ e ∈ body, IsDecided e) :
    IsDecided (.letIn (bounds.map Bound.binding) body) := by
  intro env s t s'
  have htypes : (bounds.map Bound.declaration).map Prod.snd = bounds.map Bound.type :=
    List.map_map
  rw [typeOf_letIn_eq_ok_iff, hasType_letIn_iff, boundFrame?_map_binding, values_map_binding]
  simp only [typeOfBody_eq_ok_iff, runs_body_iff each, runs_iff_hasTypes eachValue]
  refine ⟨fun h => ?_, fun h => ?_⟩
  · obtain ⟨frame, s₁, hframe, ⟨hvalues, rfl⟩, hbody, rfl⟩ := h
    obtain rfl := Option.some.inj hframe
    rw [htypes] at hvalues
    exact ⟨⟨hvalues, hbody⟩, rfl⟩
  · obtain ⟨⟨hvalues, hbody⟩, rfl⟩ := h
    rw [← htypes] at hvalues
    exact ⟨_, s, rfl, ⟨hvalues, rfl⟩, hbody, rfl⟩

theorem isDecided_letrec {bounds : List Bound} {body : List Exp}
    (hvalues : ∀ b ∈ bounds, b.value.IsExpression Q)
    (eachValue : ∀ e ∈ bounds.map Bound.value, IsDecided e) (each : ∀ e ∈ body, IsDecided e) :
    IsDecided (.letrec (bounds.map Bound.binding) body) := by
  intro env s t s'
  rw [typeOf_letrec_eq_ok_iff, values_map_binding]
  simp only [typeOfBody_eq_ok_iff, runs_body_iff each, runs_iff_hasTypes eachValue]
  refine ⟨fun h => ?_, fun h => ?_⟩
  · obtain ⟨frame, types, s₁, hframe, -, ⟨hlambdas, rfl⟩, hbody, rfl⟩ := h
    obtain ⟨ps, rfl⟩ := Procedure.exists_of_lambdaFrame? hvalues hframe
    rw [Procedure.lambdaFrame?_map_bound] at hframe
    obtain rfl := Option.some.inj hframe
    rw [Procedure.map_value_map_bound, Procedure.hasTypes_iff] at hlambdas
    exact ⟨hasType_letrec_iff.mpr ⟨hlambdas.2, hbody⟩, rfl⟩
  · obtain ⟨h, rfl⟩ := h
    obtain ⟨ps, rfl⟩ := Procedure.exists_of_hasType_letrec h
    obtain ⟨hbodies, hbody⟩ := hasType_letrec_iff.mp h
    have hlambdas := Procedure.hasTypes_iff.mpr ⟨rfl, hbodies⟩
    rw [Procedure.map_value_map_bound, Procedure.lambdaFrame?_map_bound]
    exact ⟨_, _, s, rfl, Procedure.map_lambdaType?_lambda ps, ⟨hlambdas, rfl⟩, hbody, rfl⟩

theorem isDecided_define {name : String} {declared : Ty} {value : Exp} (h : IsDecided value) :
    IsDecided (.define (.decl name declared) value) := by
  intro env s t s'
  rw [typeOf_define_eq_ok_iff]
  simp only [h env]
  refine ⟨fun h => ?_, fun h => ?_⟩
  · obtain ⟨x, u, hd, ⟨hvalue, rfl⟩, rfl⟩ := h
    obtain ⟨rfl, rfl⟩ := Prod.mk.inj (Option.some.inj hd)
    exact ⟨.define hvalue, rfl⟩
  · obtain ⟨h, rfl⟩ := h
    cases h with
    | define hvalue => exact ⟨name, declared, rfl, ⟨hvalue, rfl⟩, rfl⟩

theorem isDecided_primitive {name : String}
    (mono : ∀ t, Primitive.signature? name = some t → t.names = []) :
    IsDecided (.primitive name) := by
  intro env s t s'
  rw [typeOf_primitive_eq_ok_iff]
  refine ⟨fun h => ?_, fun h => ?_⟩
  · obtain ⟨signature, hsig, hrename⟩ := h
    have hnames := mono signature hsig
    -- without variables nothing is renamed, and the supply stays
    rw [Supply.rename_of_names_eq_nil hnames] at hrename
    obtain ⟨rfl, rfl⟩ := Prod.mk.inj hrename
    exact ⟨.primitive (signature?_eq_some_iff.mp ⟨hsig, hnames⟩), rfl⟩
  · obtain ⟨h, rfl⟩ := h
    cases h with
    | primitive h =>
      obtain ⟨hsig, hnames⟩ := signature?_eq_some_iff.mpr h
      exact ⟨t, hsig, Supply.rename_of_names_eq_nil hnames s⟩

/-- Each form of the grammar is decided if its parts are. -/
theorem isDecided_of_isForm {e : Exp} (he : e.IsForm Q) (mono : e.IsMonomorphic) :
    IsDecided e := by
  induction e using Exp.partsInduct with
  | step e ih =>
    have each : ∀ part ∈ e.parts, IsDecided part := fun part hpart =>
      ih part hpart (.expression (he.part hpart)) (mono.part hpart)
    cases he with
    | define => exact isDecided_define (each _ List.mem_cons_self)
    | expression he =>
      cases he with
      | number value =>
        intro env s t s'
        rw [typeOf, pure_eq_ok_iff]
        refine and_congr_left' ⟨fun h => h ▸ .number value, fun h => ?_⟩
        cases h with
        | number => rfl
      | boolean value =>
        intro env s t s'
        rw [typeOf, pure_eq_ok_iff]
        refine and_congr_left' ⟨fun h => h ▸ .boolean value, fun h => ?_⟩
        cases h with
        | boolean => rfl
      | string content =>
        intro env s t s'
        rw [typeOf, pure_eq_ok_iff]
        refine and_congr_left' ⟨fun h => h ▸ .string content, fun h => ?_⟩
        cases h with
        | string => rfl
      | @primitive name => exact isDecided_primitive (mono name .refl)
      | @var name =>
        intro env s t s'
        rw [typeOf_var_eq_ok_iff, Env.lookup_eq_some_iff]
        refine and_congr_left' ⟨.var, fun h => ?_⟩
        cases h with
        | var hresolves => exact hresolves
      | conditional => exact isDecided_conditional each
      | lambda => exact isDecided_lambda each
      | @app operator operands =>
        cases hop : PairOperator.ofExp? operator with
        | none =>
          rw [parts, hop] at each
          exact isDecided_app hop each
        | some op =>
          rw [parts, hop] at each
          obtain rfl := PairOperator.ofExp?_eq_some_iff.mp hop
          exact isDecided_pairOperator each
      | letIn =>
        rw [parts, values_map_binding, List.forall_mem_append] at each
        exact isDecided_letIn each.1 each.2
      | letrec _ hvalues =>
        rw [parts, values_map_binding, List.forall_mem_append] at each
        exact isDecided_letrec hvalues each.1 each.2
      | @quote value =>
        intro env s t s'
        rw [typeOf, ofExcept_eq_ok_iff, typeQuoted_eq_ok_iff]
        refine and_congr_left' ⟨.quote, fun h => ?_⟩
        cases h with
        | quote h => exact h

end

/-- The checker gives an expression or definition that was built of data exactly the type that the
rules give it, whatever the supply; it has one type at most, and without a type the outcome is an
error, with a message if there are no gaps in the environment. -/
theorem typeOf_iff_hasType {d : Datum} (hd : d.gap? = none) {e : Exp}
    (built : Exp.ofForm d = .ok e) (mono : e.IsMonomorphic) (env : Env) (s : Supply) :
    (∀ t, (∃ s', e.typeOf env s = .ok t s') ↔ HasType env e t) ∧
      (∀ t u, HasType env e t → HasType env e u → t = u) ∧
      ((∀ t, ¬ HasType env e t) → ∃ error s', e.typeOf env s = .error error s' ∧
        ((∀ frame ∈ env.frames, ∀ entry ∈ frame, entry.2.hasGap = false) →
          ∃ message, error.message = .ok message)) := by
  have he := isForm_of_ofForm (Datum.over_of_gap? hd) built
  have hdecided := isDecided_of_isForm he mono
  have hcomputes : ∀ t, HasType env e t → e.typeOf env s = .ok t s := fun t h =>
    (hdecided env s t s).mpr ⟨h, rfl⟩
  have hiff : ∀ t, (∃ s', e.typeOf env s = .ok t s') ↔ HasType env e t := by
    intro t
    refine ⟨fun h => ?_, fun h => ⟨s, hcomputes t h⟩⟩
    obtain ⟨s', h⟩ := h
    exact ((hdecided env s t s').mp h).1
  refine ⟨hiff, fun t u ht hu => ?_, fun hnone => ?_⟩
  · have h := (hcomputes t ht).symm.trans (hcomputes u hu)
    exact (EStateM.Result.ok.inj h).1
  · cases hcheck : e.typeOf env s with
    | ok t s' => exact absurd ((hiff t).mp ⟨s', hcheck⟩) (hnone t)
    | error error s' =>
      refine ⟨error, s', rfl, fun henv => ⟨error.text, ?_⟩⟩
      have keeps : Keeps (fun _ => True) (fun _ => True) :=
        ⟨fun _ _ => trivial, fun _ _ => trivial⟩
      have hover : env.Over fun _ => True := by
        intro frame hframe entry hentry
        exact Ty.over_iff.mpr ⟨henv frame hframe entry hentry, fun _ _ => trivial⟩
      -- the outcome is ordinary, so nothing in the error is a gap
      have houtcome := he.ensures keeps hover s
      rw [hcheck] at houtcome
      rw [TypingError.message, houtcome.1]
      rfl

/-- the data of `(lambda ((p : (Pair boolean string))) : boolean (car p))` -/
def firstOfPair : Datum :=
  .list [.symbol "lambda",
    .list [.list [.symbol "p", .symbol ":",
      .list [.symbol "Pair", .symbol "boolean", .symbol "string"]]],
    .symbol ":", .symbol "boolean", .list [.symbol "car", .symbol "p"]]

def firstOfPairExp : Exp :=
  .lambda [.decl "p" (.pair .boolean .string)] .boolean [.app (.primitive "car") [.var "p"]]

theorem firstOfPairExp_hasType :
    Exp.ofForm firstOfPair = .ok firstOfPairExp ∧
      HasType .empty firstOfPairExp (.proc [.pair .boolean .string] .boolean) := by
  have built : Exp.ofForm firstOfPair = .ok firstOfPairExp := rfl
  have mono : firstOfPairExp.IsMonomorphic := by
    intro name within
    obtain _ | ⟨h, within⟩ := within
    obtain rfl := List.mem_singleton.mp h
    obtain _ | ⟨h, within⟩ := within
    obtain rfl := List.mem_singleton.mp h
    obtain _ | ⟨h, within⟩ := within
    exact absurd h List.not_mem_nil
  have hiff := (typeOf_iff_hasType rfl built mono .empty (.start [])).1
  exact ⟨built, (hiff _).mp ⟨.start [], rfl⟩⟩

end AnnotatedScheme
