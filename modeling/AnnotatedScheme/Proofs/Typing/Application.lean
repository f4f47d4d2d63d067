import AnnotatedScheme.Proofs.Typing.Moved
import AnnotatedScheme.Proofs.Typing.Ordinary
import Mathlib.Tactic.Tauto

/-!
# Let and immediate application

A let and the application of a lambda to the values check the same things, the one the values before
the body and the other the body before the values. Neither order sees what the other part draws: the
types of the values are declared, and the type of the body is if it stands beside the parameters.

So the two agree (`typeIn_immediate_iff`), except that a let may have a type with drawn names, which
nobody can write beside the parameters: what is written there is reserved, and not drawn.
-/

namespace AnnotatedScheme

open Supply

namespace Exp

/-- a lambda with the bound variables as parameters, applied to the values -/
def immediate (bounds : List Bound) (t : Ty) (body : List Exp) : Exp :=
  .app (.lambda (decls (bounds.map Bound.declaration)) t body) (bounds.map Bound.value)

variable {env : Env} {bounds : List Bound} {body : List Exp} {t : Ty} {s s' : Supply}
  {name : String}

/-! ## annotations -/

theorem mem_names_let :
    name ∈ (Exp.letIn (bounds.map Bound.binding) body).names ↔
      (∃ b ∈ bounds, name ∈ b.type.names ∨ name ∈ b.value.names) ∨ name ∈ namesAll body := by
  rw [names, List.mem_append, namesAll_eq_flatMap, List.flatMap_map, List.mem_flatMap]
  refine or_congr_left (exists_congr fun b => and_congr_right fun _ => ?_)
  exact List.mem_append

theorem mem_names_declaration :
    name ∈ Frame.names (bounds.map Bound.declaration) ↔ ∃ b ∈ bounds, name ∈ b.type.names := by
  rw [Frame.names, List.flatMap_map, List.mem_flatMap]
  rfl

theorem mem_names_immediate :
    name ∈ (immediate bounds t body).names ↔
      name ∈ (Exp.letIn (bounds.map Bound.binding) body).names ∨ name ∈ t.names := by
  have hdecls : name ∈ namesAll (decls (bounds.map Bound.declaration)) ↔
      ∃ b ∈ bounds, name ∈ b.type.names := by
    rw [namesAll_eq_flatMap, decls, List.map_map, List.flatMap_map, List.mem_flatMap]
    rfl
  have hvalues : name ∈ namesAll (bounds.map Bound.value) ↔
      ∃ b ∈ bounds, name ∈ b.value.names := by
    rw [namesAll_eq_flatMap, List.flatMap_map, List.mem_flatMap]
  rw [mem_names_let, immediate]
  simp only [names, List.mem_append, hdecls, hvalues, and_or_left, exists_or]
  refine iff_of_eq ?_
  ac_rfl

/-! ## what is checked -/

theorem checks_letIn_bounds :
    (Exp.letIn (bounds.map Bound.binding) body).checks env =
      inEnv env (bounds.map Bound.value) ++
        inEnv (env.extend (bounds.map Bound.declaration)) body := by
  rw [checks, values_map_binding, boundFrame?_map_binding]
  rfl

theorem typeOf_letIn_bounds_iff :
    (Exp.letIn (bounds.map Bound.binding) body).typeOf env s = .ok t s' ↔
      ∃ s₁, Runs (inEnv env (bounds.map Bound.value)) s (bounds.map Bound.type) s₁ ∧
        typeOfBody (env.extend (bounds.map Bound.declaration)) body s₁ = .ok t s' := by
  have htypes : (bounds.map Bound.declaration).map Prod.snd = bounds.map Bound.type :=
    List.map_map
  rw [typeOf_letIn_eq_ok_iff, boundFrame?_map_binding, values_map_binding]
  constructor
  · rintro ⟨frame, s₁, hframe, runs, hbody⟩
    obtain rfl := Option.some.inj hframe
    exact ⟨s₁, htypes ▸ runs, hbody⟩
  · rintro ⟨s₁, runs, hbody⟩
    exact ⟨_, s₁, rfl, htypes.symm ▸ runs, hbody⟩

theorem typeOf_immediate_iff :
    (immediate bounds t body).typeOf env s = .ok t s' ↔
      ∃ s₁, typeOfBody (env.extend (bounds.map Bound.declaration)) body s = .ok t s₁ ∧
        Runs (inEnv env (bounds.map Bound.value)) s₁ (bounds.map Bound.type) s' := by
  have htypes : (bounds.map Bound.declaration).map Prod.snd = bounds.map Bound.type :=
    List.map_map
  rw [immediate, typeOf_app_eq_ok_iff_of_none rfl]
  simp only [inEnv, List.map_cons, Runs.cons_iff, typeOf_lambda_eq_ok_iff, frame?_decls]
  constructor
  · rintro ⟨params, s₁, ⟨frame, hframe, hproc, hbody⟩, runs⟩
    obtain rfl := Option.some.inj hframe
    obtain ⟨rfl, -⟩ := Ty.proc.inj hproc
    exact ⟨s₁, hbody, htypes ▸ runs⟩
  · rintro ⟨s₁, hbody, runs⟩
    exact ⟨_, s₁, ⟨_, rfl, rfl, hbody⟩, htypes.symm ▸ runs⟩

/-- Where all variables are reserved, and those of the type as well, the two are checked alike. -/
theorem yields_immediate_iff
    (covered : (Call.mk env (Exp.letIn (bounds.map Bound.binding) body) s).Covered)
    (known : ∀ name ∈ t.names, name ∈ s.reserved ∨ name = "literal") :
    (Call.mk env (immediate bounds t body) s).Yields t ↔
      (Call.mk env (Exp.letIn (bounds.map Bound.binding) body) s).Yields t := by
  have htypes : ∀ u ∈ bounds.map Bound.type, ∀ name ∈ u.names,
      name ∈ s.reserved ∨ name = "literal" := by
    refine List.forall_mem_map.mpr fun b hb name hname => .inl (covered name (.inr ?_))
    exact mem_names_let.mpr (.inl ⟨b, hb, .inl hname⟩)
  have hvalues : ∀ {s₁ : Supply}, s₁.reserved = s.reserved →
      ∀ c ∈ inEnv env (bounds.map Bound.value), (Call.mk c.1 c.2 s₁).Covered := by
    intro s₁ hs₁ c hc
    refine covered.check ?_ hs₁
    rw [checks_letIn_bounds]
    exact List.mem_append_left _ hc
  have hbody : ∀ {s₁ : Supply}, s₁.reserved = s.reserved →
      ∀ c ∈ inEnv (env.extend (bounds.map Bound.declaration)) body,
        (Call.mk c.1 c.2 s₁).Covered := by
    intro s₁ hs₁ c hc
    refine covered.check ?_ hs₁
    rw [checks_letIn_bounds]
    exact List.mem_append_right _ hc
  constructor
  · rintro ⟨s', h⟩
    obtain ⟨s₁, body, runs⟩ := typeOf_immediate_iff.mp h
    have hs₁ : s₁.reserved = s.reserved := (typeOfBody_traced body).1.reserved
    obtain ⟨s₂, runs'⟩ := runs.anywhere (.of_eq hs₁) (hvalues rfl) htypes
    have hs₂ : s₂.reserved = s.reserved := runs'.grows.reserved
    obtain ⟨s₃, body'⟩ := typeOfBody_anywhere body (.of_eq hs₂.symm) (hbody hs₂) (hs₂.symm ▸ known)
    exact ⟨s₃, typeOf_letIn_bounds_iff.mpr ⟨s₂, runs', body'⟩⟩
  · rintro ⟨s', h⟩
    obtain ⟨s₁, runs, body⟩ := typeOf_letIn_bounds_iff.mp h
    have hs₁ : s₁.reserved = s.reserved := runs.grows.reserved
    obtain ⟨s₂, body'⟩ := typeOfBody_anywhere body (.of_eq hs₁) (hbody rfl) known
    have hs₂ : s₂.reserved = s.reserved := (typeOfBody_traced body').1.reserved
    obtain ⟨s₃, runs'⟩ := runs.anywhere (.of_eq hs₂.symm) (hvalues hs₂) (hs₂.symm ▸ htypes)
    exact ⟨s₃, typeOf_immediate_iff.mpr ⟨s₂, body', runs'⟩⟩

/-- The type of an application cannot be one with drawn names, since it stands in a lambda. -/
theorem known_of_typeOf_immediate (h : (immediate bounds t body).typeOf env s = .ok t s')
    (reserves : ∀ name ∈ t.names, name ∈ s.reserved) :
    ∀ name ∈ t.names, name ∈ (Exp.letIn (bounds.map Bound.binding) body).names ∨
      name ∈ env.names ∨ name = "literal" := by
  intro name hname
  obtain ⟨s₁, hbody, -⟩ := typeOf_immediate_iff.mp h
  rw [mem_names_let]
  rcases (typeOfBody_traced hbody).2 name hname with (henv | h | h) | drawn
  · rw [Env.names_extend, List.mem_append, mem_names_declaration] at henv
    rcases henv with ⟨b, hb, h⟩ | h
    · exact .inl (.inl ⟨b, hb, .inl h⟩)
    · exact .inr (.inl h)
  · exact .inl (.inr h)
  · exact .inr (.inr h)
  · exact absurd (reserves name hname) drawn.1

end Exp

open Exp

/-- The application of a lambda to the values has a type just if the let has it, and all variables
of the type stand in annotations of the let or in the environment, or are `literal`. -/
theorem typeIn_immediate_iff (env : Env) (bounds : List Bound) (body : List Exp) (t : Ty) :
    (Exp.app (.lambda (decls (bounds.map Bound.declaration)) t body)
        (bounds.map Bound.value)).typeIn env = .ok t ↔
      (Exp.letIn (bounds.map Bound.binding) body).typeIn env = .ok t ∧
        ∀ name ∈ t.names, name ∈ (Exp.letIn (bounds.map Bound.binding) body).names ∨
          name ∈ env.names ∨ name = "literal" := by
  let whole := Exp.letIn (bounds.map Bound.binding) body
  let first := Supply.start (whole.names ++ env.names)
  let second := Supply.start ((immediate bounds t body).names ++ env.names)
  rw [← Call.start_yields_iff, ← Call.start_yields_iff]
  -- the type beside the parameters adds no numbered names to the reserved ones
  have concur : (∀ name ∈ t.names, name ∈ whole.names ∨ name ∈ env.names ∨ name = "literal") →
      Concur second.reserved first.reserved := by
    intro known base index
    have hne := candidate_ne_literal base index
    have ht := known (candidate base index)
    simp only [second, first, Supply.start, List.mem_append, mem_names_immediate]
    tauto
  have covered : (Call.mk env whole second).Covered := by
    intro name hname
    simp only [second, Supply.start, List.mem_append, mem_names_immediate]
    tauto
  have reserves : ∀ name ∈ t.names, name ∈ second.reserved := by
    intro name hname
    simp only [second, Supply.start, List.mem_append, mem_names_immediate]
    tauto
  have hsame := yields_immediate_iff covered fun name hname => .inl (reserves name hname)
  constructor
  · rintro ⟨s', h⟩
    have known := known_of_typeOf_immediate h reserves
    obtain ⟨s₁, hlet⟩ := hsame.mp ⟨s', h⟩
    refine ⟨typeOf_anywhere hlet (concur known) (Call.covered_start env whole) ?_, known⟩
    intro name hname
    show name ∈ whole.names ++ env.names ∨ name = "literal"
    rw [List.mem_append, or_assoc]
    exact known name hname
  · rintro ⟨⟨s', h⟩, known⟩
    have hback : Concur first.reserved second.reserved := fun base index =>
      (concur known base index).symm
    exact hsame.mpr (typeOf_anywhere h hback covered fun name hname => .inl (reserves name hname))

/-- a let without bindings, for whose type a name is drawn -/
example :
    ((Exp.letIn [] [.primitive "number?"]).typeIn .empty).toOption =
        some (.proc [.var "T_1"] .boolean) ∧
      ((Exp.app (.lambda [] (.proc [.var "T_1"] .boolean) [.primitive "number?"]) []).typeIn
        .empty).toOption = none := by
  decide +kernel

end AnnotatedScheme
