import AnnotatedScheme.Proofs.Typing.Application
import AnnotatedScheme.Proofs.Typing.Same

/-!
# Bindings in another order

A let and a letrec check their values one after the other and then the body, with a frame of the
bound variables (`Bound.frame`). In another order

* the values have the types they had, which are declared, or written in lambdas, so that no drawn
  names are in them (`exists_runs_map_iff`);
* the frame binds the same variables to the same types, as long as each is bound once
  (`Env.same_extend_of_perm`);
* the body has its type up to the names that are drawn in it (`Exp.typeOfBody_moved`).

So the order of the bindings does not matter (`typeIn_alike_of_perm`).
-/

namespace AnnotatedScheme

open Supply

namespace Bound

/-- the bound variables, with the types that `type` gives them -/
def frame (type : Bound → Ty) (bounds : List Bound) : Frame :=
  bounds.map fun b => (b.name, type b)

/-- the type that the annotations of the value give, if it is a lambda -/
def lambdaType (b : Bound) : Ty := b.value.lambdaType?.getD .gap

variable {bounds bounds' : List Bound} {type : Bound → Ty}

theorem map_fst_frame : (frame type bounds).map Prod.fst = bounds.map Bound.name := by
  rw [frame, List.map_map]
  rfl

theorem same_extend_frame (perm : bounds.Perm bounds') (distinct : (bounds.map Bound.name).Nodup)
    (env : Env) : Env.Same (env.extend (frame type bounds)) (env.extend (frame type bounds')) := by
  refine Env.same_extend_of_perm env (perm.map _) ?_
  rw [map_fst_frame]
  exact distinct

end Bound

namespace Exp

variable {env : Env} {bounds bounds' : List Bound} {body : List Exp} {t : Ty} {s s' s₁ s₂ : Supply}
  {name : String}

/-! ## what a letrec checks -/

theorem lambdaFrame?_map_binding_iff {frame : Frame} :
    lambdaFrame? (bounds.map Bound.binding) = some frame ↔
      (∀ b ∈ bounds, b.value.lambdaType? = some b.lambdaType) ∧
        frame = Bound.frame Bound.lambdaType bounds := by
  induction bounds generalizing frame with
  | nil => simp [lambdaFrame?, Bound.frame, eq_comm]
  | cons b rest ih =>
    rw [List.map_cons, lambdaFrame?_cons_eq_some_iff, List.forall_mem_cons]
    constructor
    · rintro ⟨_, _, t, tail, hbound, ht, htail, rfl⟩
      obtain ⟨rfl, rfl⟩ := Prod.mk.inj (Option.some.inj hbound)
      obtain ⟨hrest, rfl⟩ := ih.mp htail
      have htype : b.lambdaType = t := by rw [Bound.lambdaType, ht, Option.getD_some]
      subst htype
      exact ⟨⟨ht, hrest⟩, rfl⟩
    · rintro ⟨⟨ht, hrest⟩, rfl⟩
      exact ⟨_, b.value, b.lambdaType, _, rfl, ht, ih.mpr ⟨hrest, rfl⟩, rfl⟩

theorem checks_letrec_bounds (h : ∀ b ∈ bounds, b.value.lambdaType? = some b.lambdaType) :
    (Exp.letrec (bounds.map Bound.binding) body).checks env =
      inEnv (env.extend (Bound.frame Bound.lambdaType bounds)) (bounds.map Bound.value) ++
        inEnv (env.extend (Bound.frame Bound.lambdaType bounds)) body := by
  rw [checks, values_map_binding, lambdaFrame?_map_binding_iff.mpr ⟨h, rfl⟩, inEnv, inEnv, inEnv,
    List.map_append]
  rfl

theorem typeOf_letrec_bounds_iff :
    (Exp.letrec (bounds.map Bound.binding) body).typeOf env s = .ok t s' ↔
      (∀ b ∈ bounds, b.value.lambdaType? = some b.lambdaType) ∧
        ∃ s₁, Runs (inEnv (env.extend (Bound.frame Bound.lambdaType bounds))
            (bounds.map Bound.value)) s (bounds.map Bound.lambdaType) s₁ ∧
          typeOfBody (env.extend (Bound.frame Bound.lambdaType bounds)) body s₁ = .ok t s' := by
  have hmap : (∀ b ∈ bounds, b.value.lambdaType? = some b.lambdaType) →
      (bounds.map Bound.value).map lambdaType? = (bounds.map Bound.lambdaType).map some := by
    intro h
    rw [List.map_map, List.map_map]
    exact List.map_congr_left h
  rw [typeOf_letrec_eq_ok_iff, values_map_binding]
  constructor
  · rintro ⟨frame, types, s₁, hframe, htypes, runs, hbody⟩
    obtain ⟨hlambdas, rfl⟩ := lambdaFrame?_map_binding_iff.mp hframe
    have hsame : types = bounds.map Bound.lambdaType :=
      List.map_injective_iff.mpr (Option.some_injective Ty) (htypes.symm.trans (hmap hlambdas))
    exact ⟨hlambdas, s₁, hsame ▸ runs, hbody⟩
  · rintro ⟨hlambdas, s₁, runs, hbody⟩
    exact ⟨_, _, s₁, lambdaFrame?_map_binding_iff.mpr ⟨hlambdas, rfl⟩, hmap hlambdas, runs, hbody⟩

/-! ## another order -/

/-- The values go through in any order, since each of them does so by itself. -/
theorem exists_runs_of_perm {type : Bound → Ty} (perm : bounds.Perm bounds')
    (concur : Concur s.reserved s'.reserved)
    (covered : ∀ c ∈ inEnv env (bounds'.map Bound.value), (Call.mk c.1 c.2 s').Covered)
    (known : ∀ b ∈ bounds', ∀ name ∈ (type b).names, name ∈ s'.reserved)
    (runs : Runs (inEnv env (bounds.map Bound.value)) s (bounds.map type) s₁) :
    ∃ s₂, Runs (inEnv env (bounds'.map Bound.value)) s' (bounds'.map type) s₂ := by
  have hchecks : ∀ bs : List Bound,
      inEnv env (bs.map Bound.value) = bs.map fun b => (env, b.value) := by
    intro bs
    rw [inEnv, List.map_map]
    rfl
  rw [hchecks] at covered runs ⊢
  rw [List.forall_mem_map] at covered
  have known' : ∀ b ∈ bounds', ∀ name ∈ (type b).names, name ∈ s'.reserved ∨ name = "literal" :=
    fun b hb name hname => .inl (known b hb name hname)
  rw [exists_runs_map_iff covered known']
  have hfirst : ∃ s₂, Runs (bounds.map fun b => (env, b.value)) s' (bounds.map type) s₂ := by
    refine runs.anywhere concur ?_ ?_
    · exact List.forall_mem_map.mpr fun b hb => covered b (perm.mem_iff.mp hb)
    · exact List.forall_mem_map.mpr fun b hb => known' b (perm.mem_iff.mp hb)
  have heach := (exists_runs_map_iff (fun b hb => covered b (perm.mem_iff.mp hb))
    fun b hb => known' b (perm.mem_iff.mp hb)).mp hfirst
  exact fun b hb => heach b (perm.mem_iff.mpr hb)

/-- The values are checked in environments with the same look-ups, and so is the body behind them,
which may meet the supply elsewhere. -/
theorem exists_scope_of_perm {type : Bound → Ty} {outer outer' : Env} (perm : bounds.Perm bounds')
    (distinct : (bounds.map Bound.name).Nodup) (same : outer.Same outer')
    (concur : Concur s.reserved s'.reserved)
    (covered : ∀ c ∈ inEnv outer' (bounds'.map Bound.value) ++
      inEnv (env.extend (Bound.frame type bounds')) body, (Call.mk c.1 c.2 s').Covered)
    (known : ∀ b ∈ bounds', ∀ name ∈ (type b).names, name ∈ s'.reserved)
    (runs : Runs (inEnv outer (bounds.map Bound.value)) s (bounds.map type) s₁)
    (hbody : typeOfBody (env.extend (Bound.frame type bounds)) body s₁ = .ok t s₂) :
    ∃ σ, Redraws s'.reserved σ ∧ ∃ s₃ s₄,
      Runs (inEnv outer' (bounds'.map Bound.value)) s' (bounds'.map type) s₃ ∧
        typeOfBody (env.extend (Bound.frame type bounds')) body s₃ = .ok (t.rename σ) s₄ := by
  obtain ⟨hvalues, hforms⟩ := List.forall_mem_append.mp covered
  have runs' : Runs (inEnv outer' (bounds.map Bound.value)) s (bounds.map type) s₁ :=
    runs_same runs (same_inEnv same _)
  obtain ⟨s₃, runs₃⟩ := exists_runs_of_perm perm concur hvalues known runs'
  have hs₁ : s₁.reserved = s.reserved := runs.grows.reserved
  have hs₃ : s₃.reserved = s'.reserved := runs₃.grows.reserved
  have concur' : Concur s₁.reserved s₃.reserved := by
    rw [hs₁, hs₃]
    exact concur
  have hforms' : ∀ c ∈ inEnv (env.extend (Bound.frame type bounds')) body,
      (Call.mk c.1 c.2 s₃).Covered := fun c hc name hname => hs₃.symm ▸ hforms c hc name hname
  have hbody' := typeOfBody_same (Bound.same_extend_frame perm distinct env) hbody
  obtain ⟨σ, redraws, s₄, hbody₄⟩ := typeOfBody_moved hbody' concur' hforms'
  exact ⟨σ, hs₃ ▸ redraws, s₃, s₄, runs₃, hbody₄⟩

theorem typeOf_letIn_of_perm (perm : bounds.Perm bounds')
    (distinct : (bounds.map Bound.name).Nodup) (concur : Concur s.reserved s'.reserved)
    (covered : (Call.mk env (Exp.letIn (bounds'.map Bound.binding) body) s').Covered)
    (h : (Exp.letIn (bounds.map Bound.binding) body).typeOf env s = .ok t s₁) :
    ∃ σ, Redraws s'.reserved σ ∧ ∃ s₂,
      (Exp.letIn (bounds'.map Bound.binding) body).typeOf env s' = .ok (t.rename σ) s₂ := by
  obtain ⟨s₂, runs, hbody⟩ := typeOf_letIn_bounds_iff.mp h
  have known : ∀ b ∈ bounds', ∀ name ∈ b.type.names, name ∈ s'.reserved := fun b hb name hname =>
    covered name (.inr (mem_names_let.mpr (.inl ⟨b, hb, .inl hname⟩)))
  obtain ⟨σ, redraws, s₃, s₄, runs', hbody'⟩ := exists_scope_of_perm perm distinct (.refl env)
    concur (fun c hc => covered.check (checks_letIn_bounds ▸ hc) rfl) known runs hbody
  exact ⟨σ, redraws, s₄, typeOf_letIn_bounds_iff.mpr ⟨s₃, runs', hbody'⟩⟩

theorem typeOf_letrec_of_perm (perm : bounds.Perm bounds')
    (distinct : (bounds.map Bound.name).Nodup) (concur : Concur s.reserved s'.reserved)
    (covered : (Call.mk env (Exp.letrec (bounds'.map Bound.binding) body) s').Covered)
    (h : (Exp.letrec (bounds.map Bound.binding) body).typeOf env s = .ok t s₁) :
    ∃ σ, Redraws s'.reserved σ ∧ ∃ s₂,
      (Exp.letrec (bounds'.map Bound.binding) body).typeOf env s' = .ok (t.rename σ) s₂ := by
  obtain ⟨hlambdas, s₂, runs, hbody⟩ := typeOf_letrec_bounds_iff.mp h
  have hlambdas' : ∀ b ∈ bounds', b.value.lambdaType? = some b.lambdaType := fun b hb =>
    hlambdas b (perm.mem_iff.mpr hb)
  have known : ∀ b ∈ bounds', ∀ name ∈ b.lambdaType.names, name ∈ s'.reserved := by
    intro b hb name hname
    refine covered name (.inr (mem_names_let.mpr (.inl ⟨b, hb, .inr ?_⟩)))
    exact names_lambdaType? (hlambdas' b hb) hname
  obtain ⟨σ, redraws, s₃, s₄, runs', hbody'⟩ :=
    exists_scope_of_perm perm distinct (Bound.same_extend_frame perm distinct env) concur
      (fun c hc => covered.check (checks_letrec_bounds hlambdas' ▸ hc) rfl) known runs hbody
  exact ⟨σ, redraws, s₄, typeOf_letrec_bounds_iff.mpr ⟨hlambdas', s₃, runs', hbody'⟩⟩

variable {form : List Exp → List Exp → Exp}

theorem names_form_of_perm (hform : form = Exp.letIn ∨ form = Exp.letrec)
    (perm : bounds.Perm bounds') :
    name ∈ (form (bounds.map Bound.binding) body).names ↔
      name ∈ (form (bounds'.map Bound.binding) body).names := by
  have hnames : ∀ bs : List Bound, (form (bs.map Bound.binding) body).names =
      (Exp.letIn (bs.map Bound.binding) body).names := by
    intro bs
    rcases hform with rfl | rfl <;> rfl
  rw [hnames, hnames, mem_names_let, mem_names_let]
  simp only [perm.mem_iff]

/-- A type comes out in the other order as well, with other names for the drawn ones. -/
theorem exists_typeIn_of_perm (hform : form = Exp.letIn ∨ form = Exp.letrec)
    (perm : bounds.Perm bounds') (distinct : (bounds.map Bound.name).Nodup)
    (h : (form (bounds.map Bound.binding) body).typeIn env = .ok t) :
    ∃ σ, Redraws ((form (bounds'.map Bound.binding) body).names ++ env.names) σ ∧
      (form (bounds'.map Bound.binding) body).typeIn env = .ok (t.rename σ) := by
  have covered := Call.covered_start env (form (bounds'.map Bound.binding) body)
  have concur : Concur ((form (bounds.map Bound.binding) body).names ++ env.names)
      ((form (bounds'.map Bound.binding) body).names ++ env.names) := by
    intro base index
    rw [List.mem_append, List.mem_append, names_form_of_perm hform perm]
  obtain ⟨s', h⟩ := Call.start_yields_iff.mpr h
  simp only [← Call.start_yields_iff]
  rcases hform with rfl | rfl
  · exact typeOf_letIn_of_perm perm distinct concur covered h
  · exact typeOf_letrec_of_perm perm distinct concur covered h

end Exp

/-- With pairwise distinct variables, a let or a letrec with its bindings in two orders either has
no type in both of them, or types that are the same under a permutation of names, which moves none
but numbered names, none in the annotations or the environment and not `literal`. -/
theorem typeIn_alike_of_perm {bounds bounds' : List Bound} (perm : bounds.Perm bounds')
    (distinct : (bounds.map Bound.name).Nodup) {form : List Exp → List Exp → Exp}
    (hform : form = Exp.letIn ∨ form = Exp.letrec) (env : Env) (body : List Exp) :
    (∃ t t', (form (bounds.map Bound.binding) body).typeIn env = .ok t ∧
      (form (bounds'.map Bound.binding) body).typeIn env = .ok t' ∧
      ∃ σ : Equiv.Perm String,
        (∀ name, name ∈ (form (bounds.map Bound.binding) body).names ∨ name ∈ env.names ∨
          name = "literal" → σ name = name) ∧
        (∀ name, σ name ≠ name → ∃ base index, name = candidate base index) ∧ t' = t.rename σ) ∨
    ∃ error error', (form (bounds.map Bound.binding) body).typeIn env = .error error ∧
      (form (bounds'.map Bound.binding) body).typeIn env = .error error' := by
  cases hfirst : (form (bounds.map Bound.binding) body).typeIn env with
  | ok t =>
    obtain ⟨σ, redraws, hsecond⟩ := Exp.exists_typeIn_of_perm hform perm distinct hfirst
    refine .inl ⟨t, t.rename σ, rfl, hsecond, σ, fun name hname => redraws.fixes name ?_,
      redraws.moves, rfl⟩
    rw [Exp.names_form_of_perm hform perm] at hname
    rw [List.mem_append, or_assoc]
    exact hname
  | error error =>
    cases hsecond : (form (bounds'.map Bound.binding) body).typeIn env with
    | ok t' =>
      have distinct' : (bounds'.map Bound.name).Nodup :=
        (perm.map Bound.name).nodup_iff.mp distinct
      obtain ⟨σ, -, hback⟩ := Exp.exists_typeIn_of_perm hform perm.symm distinct' hsecond
      rw [hfirst] at hback
      cases hback
    | error error' => exact .inr ⟨error, error', rfl, rfl⟩

/-- two variables whose values draw names -/
def drawingBounds : List Bound :=
  [⟨"x", .var "T_1", .letIn [] [.primitive "number?", .var "z"]⟩,
    ⟨"y", .boolean, .letIn [] [.primitive "eq?", .boolean true]⟩]

/-- a body with a pair of a predicate, for which a name is drawn, and of `x` -/
def drawnPair : List Exp :=
  [.app (.primitive "cons") [.primitive "number?", .var "x"]]

/-- the type of such a pair -/
def predicateAndVariable (name : String) : Ty :=
  .pair (.proc [.var name] .boolean) (.var "T_1")

/-- Only one of the two orders meets the reserved name `T_1`, which is passed over. -/
theorem drawingBounds_alike :
    drawingBounds.Perm drawingBounds.reverse ∧ (drawingBounds.map Bound.name).Nodup ∧
      (Exp.letIn (drawingBounds.map Bound.binding) drawnPair).typeIn ⟨[[("z", .var "T_1")]]⟩ =
        .ok (predicateAndVariable "T_5") ∧
      (Exp.letIn (drawingBounds.reverse.map Bound.binding) drawnPair).typeIn
        ⟨[[("z", .var "T_1")]]⟩ = .ok (predicateAndVariable "T_4") ∧
      ∃ σ : Equiv.Perm String, σ "T_1" = "T_1" ∧
        predicateAndVariable "T_4" = (predicateAndVariable "T_5").rename σ := by
  have perm : drawingBounds.Perm drawingBounds.reverse := (List.reverse_perm _).symm
  have distinct : (drawingBounds.map Bound.name).Nodup := by decide
  have first : (Exp.letIn (drawingBounds.map Bound.binding) drawnPair).typeIn
      ⟨[[("z", .var "T_1")]]⟩ = .ok (predicateAndVariable "T_5") :=
    Except.toOption_eq_some_iff.mp (by decide +kernel)
  have second : (Exp.letIn (drawingBounds.reverse.map Bound.binding) drawnPair).typeIn
      ⟨[[("z", .var "T_1")]]⟩ = .ok (predicateAndVariable "T_4") :=
    Except.toOption_eq_some_iff.mp (by decide +kernel)
  refine ⟨perm, distinct, first, second, ?_⟩
  obtain ⟨t, t', ht, ht', σ, fixes, -, htype⟩ | ⟨error, -, herror, -⟩ :=
    typeIn_alike_of_perm perm distinct (.inl rfl) ⟨[[("z", .var "T_1")]]⟩ drawnPair
  · obtain rfl := Except.ok.inj (first.symm.trans ht)
    obtain rfl := Except.ok.inj (second.symm.trans ht')
    exact ⟨σ, fixes "T_1" (.inr (.inl (by decide))), htype⟩
  · rw [first] at herror
    cases herror

end AnnotatedScheme
