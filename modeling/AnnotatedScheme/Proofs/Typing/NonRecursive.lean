import AnnotatedScheme.Proofs.Typing.Same

/-!
# A letrec without recursion

A letrec checks its lambdas under the frame of the bound variables, a let checks its values outside
of it. If none of the variables is free in a lambda, the frame does not show in the lambdas.

* `Exp.typeOf_lambda_agreeOn`  a lambda does not even see whether the environment is empty, since
                               its body is under the parameters;
* `Exp.exists_frame_of_lambdas`  the frame of the declarations is the one of the lambdas;
* `typeOf_letrec_iff_letIn`    the letrec has a type just if the let with the same bindings has it,
                               from the same supply and to the same supply.

Several bindings may be of one variable, and the variables may be bound again in the lambdas.
-/

namespace AnnotatedScheme

variable {env env₁ env₂ : Env} {frame : Frame}

namespace Exp

variable {bindings body params : List Exp} {result t : Ty} {s s' : Supply}

/-! ## lambdas -/

theorem typeOf_lambda_agreeOn (h : Env.AgreeOn (Exp.lambda params result body).free env₁ env₂)
    (typed : (Exp.lambda params result body).typeOf env₁ s = .ok t s') :
    (Exp.lambda params result body).typeOf env₂ s = .ok t s' := by
  obtain ⟨frame, hframe, rfl, hbody⟩ := typeOf_lambda_eq_ok_iff.mp typed
  refine typeOf_lambda_eq_ok_iff.mpr ⟨frame, hframe, rfl, typeOfBody_sameOn ?_ hbody⟩
  refine Env.AgreeOn.sameOn_extend ?_
  rw [map_fst_frame? hframe]
  exact h

theorem typeOf_lambda_extend_iff {value : Exp} {u : Ty} (lambda : value.lambdaType? = some u)
    (h : ∀ x ∈ value.free, x ∉ frame.map Prod.fst) :
    value.typeOf (env.extend frame) s = .ok t s' ↔ value.typeOf env s = .ok t s' := by
  cases value with
  | lambda params result body =>
    have agree : Env.AgreeOn (Exp.lambda params result body).free env (env.extend frame) :=
      Env.agreeOn_extend h
    exact ⟨typeOf_lambda_agreeOn fun x hx => (agree x hx).symm, typeOf_lambda_agreeOn agree⟩
  | _ => cases lambda

theorem runs_congr {es : List Exp} {ts : List Ty}
    (h : ∀ e ∈ es, ∀ s t s', e.typeOf env₁ s = .ok t s' ↔ e.typeOf env₂ s = .ok t s') :
    Runs (inEnv env₁ es) s ts s' ↔ Runs (inEnv env₂ es) s ts s' := by
  induction es generalizing s ts with
  | nil => exact Iff.rfl
  | cons e rest ih =>
    rw [List.forall_mem_cons] at h
    show Runs ((env₁, e) :: inEnv env₁ rest) s ts s' ↔ Runs ((env₂, e) :: inEnv env₂ rest) s ts s'
    simp only [Runs.cons_left_iff, h.1, ih h.2]

/-! ## frames -/

/-- the declared types are those of the lambdas, so that the two frames are one -/
theorem exists_frame_of_lambdas (lambdas : ∀ b ∈ bindings, ∃ x t value,
      b.bound? = some (.decl x t, value) ∧ value.lambdaType? = some t) :
    ∃ frame, boundFrame? bindings = some frame ∧ lambdaFrame? bindings = some frame ∧
      (values bindings).map lambdaType? = (frame.map Prod.snd).map some := by
  induction bindings with
  | nil => exact ⟨[], rfl, rfl, rfl⟩
  | cons b rest ih =>
    obtain ⟨⟨x, t, value, hbound, htype⟩, hrest⟩ := List.forall_mem_cons.mp lambdas
    obtain ⟨tail, hdeclared, hlambdas, htypes⟩ := ih hrest
    refine ⟨(x, t) :: tail, ?_, ?_, ?_⟩
    · exact boundFrame?_cons_eq_some_iff.mpr ⟨_, value, (x, t), tail, hbound, rfl, hdeclared, rfl⟩
    · exact lambdaFrame?_cons_eq_some_iff.mpr ⟨_, value, t, tail, hbound, htype, hlambdas, rfl⟩
    · rw [values_cons hbound, List.map_cons, htype, htypes]
      rfl

theorem exists_lambdaType?_of_mem_values (lambdas : ∀ b ∈ bindings, ∃ x t value,
      b.bound? = some (.decl x t, value) ∧ value.lambdaType? = some t) {value : Exp}
    (h : value ∈ values bindings) : ∃ u, value.lambdaType? = some u := by
  obtain ⟨b, hb, d, hbound⟩ := mem_values_iff.mp h
  obtain ⟨x, t, value', hbound', htype⟩ := lambdas b hb
  obtain ⟨-, rfl⟩ := Prod.mk.inj (Option.some.inj (hbound.symm.trans hbound'))
  exact ⟨t, htype⟩

end Exp

open Exp

/-- If all values are lambdas of the declared types and no bound variable is free in one of them, a
letrec comes out with the same types as the let with the same bindings and body, and leaves the same
supply. -/
theorem typeOf_letrec_iff_letIn {bindings : List Exp}
    (lambdas : ∀ b ∈ bindings, ∃ x t value,
      b.bound? = some (.decl x t, value) ∧ value.lambdaType? = some t)
    (nonRecursive : ∀ x ∈ boundNames bindings, ∀ value ∈ values bindings, x ∉ value.free)
    (env : Env) (body : List Exp) (s s' : Supply) (t : Ty) :
    (Exp.letrec bindings body).typeOf env s = .ok t s' ↔
      (Exp.letIn bindings body).typeOf env s = .ok t s' := by
  obtain ⟨frame, hdeclared, hlambdas, htypes⟩ := exists_frame_of_lambdas lambdas
  have hvalues : ∀ value ∈ values bindings, ∀ s t s',
      value.typeOf (env.extend frame) s = .ok t s' ↔ value.typeOf env s = .ok t s' := by
    intro value hvalue s t s'
    obtain ⟨u, htype⟩ := exists_lambdaType?_of_mem_values lambdas hvalue
    refine typeOf_lambda_extend_iff htype ?_
    rw [map_fst_boundFrame? hdeclared]
    exact fun x hx hbound => nonRecursive x hbound value hvalue hx
  rw [typeOf_letrec_eq_ok_iff, typeOf_letIn_eq_ok_iff]
  constructor
  · rintro ⟨frame', types, s₁, hframe, htypes', runs, hbody⟩
    obtain rfl := Option.some.inj (hlambdas.symm.trans hframe)
    have hsame : types = frame.map Prod.snd :=
      List.map_injective_iff.mpr (fun _ _ => Option.some.inj) (htypes'.symm.trans htypes)
    subst hsame
    exact ⟨frame, s₁, hdeclared, (runs_congr hvalues).mp runs, hbody⟩
  · rintro ⟨frame', s₁, hframe, runs, hbody⟩
    obtain rfl := Option.some.inj (hdeclared.symm.trans hframe)
    exact ⟨frame, _, s₁, hlambdas, htypes, (runs_congr hvalues).mpr runs, hbody⟩

/-- `((f : (number -> boolean)) (lambda ((x : number)) : boolean (p x)))` and then, for the variable
`f` once more, `((f : (boolean -> number)) (lambda ((f : boolean)) : number 1))` -/
def unrelatedLambdas : List Exp :=
  [.binding (.decl "f" (.proc [.number] .boolean))
      (.lambda [.decl "x" .number] .boolean [.app (.var "p") [.var "x"]]),
    .binding (.decl "f" (.proc [.boolean] .number))
      (.lambda [.decl "f" .boolean] .number [.conditional (.var "f") (.number (.int 1))
        (.number (.int 2))])]

/-- The first one of two bindings counts in the body; `p` is bound further out. -/
theorem typeOf_letrec_unrelatedLambdas :
    (∀ x ∈ boundNames unrelatedLambdas, ∀ value ∈ values unrelatedLambdas, x ∉ value.free) ∧
      (Exp.letIn unrelatedLambdas [.app (.var "f") [.number (.int 3)]]).typeOf
        ⟨[[("p", .proc [.number] .boolean)]]⟩ (.start []) = .ok .boolean (.start []) ∧
      (Exp.letrec unrelatedLambdas [.app (.var "f") [.number (.int 3)]]).typeOf
        ⟨[[("p", .proc [.number] .boolean)]]⟩ (.start []) = .ok .boolean (.start []) := by
  have lambdas : ∀ b ∈ unrelatedLambdas, ∃ x t value,
      b.bound? = some (.decl x t, value) ∧ value.lambdaType? = some t :=
    List.forall_mem_cons.mpr ⟨⟨_, _, _, rfl, rfl⟩,
      List.forall_mem_singleton.mpr ⟨_, _, _, rfl, rfl⟩⟩
  have nonRecursive : ∀ x ∈ boundNames unrelatedLambdas, ∀ value ∈ values unrelatedLambdas,
      x ∉ value.free := by
    have hfree : ∀ value ∈ values unrelatedLambdas, "f" ∉ value.free :=
      List.forall_mem_cons.mpr ⟨by decide, List.forall_mem_singleton.mpr (by decide)⟩
    exact List.forall_mem_cons.mpr ⟨hfree, List.forall_mem_singleton.mpr hfree⟩
  have typed : (Exp.letIn unrelatedLambdas [.app (.var "f") [.number (.int 3)]]).typeOf
      ⟨[[("p", .proc [.number] .boolean)]]⟩ (.start []) = .ok .boolean (.start []) := rfl
  have htyped := (typeOf_letrec_iff_letIn lambdas nonRecursive _ _ _ _ _).mpr typed
  exact ⟨nonRecursive, typed, htyped⟩

end AnnotatedScheme
