import AnnotatedScheme.Proofs.Env.Basic
import AnnotatedScheme.Proofs.Typing.Rule
import AnnotatedScheme.Proofs.Ty.Supply
import Mathlib.Data.List.Forall2

/-!
# Where type variables come from

The type variables that a check meets stand in the annotations of the expression or in the
environment, are `literal` for quoted data, or have been drawn. The environments of the parts hold
no others than the annotations and the environment around them (`Exp.names_env_of_mem_checks`), and
the type of a form has only variables of these environments, of the annotations and of the types of
its parts (`Exp.Rule.names`). So the variables of a type that comes out of a check are traced to the
environment, to the annotations, to `literal` or to a drawing in this check (`Exp.typeOf_traced`).

As checks keep the reserved names, so do runs (`Runs.grows`); a statement about two runs that draw
in step can take this for granted (`Runs.simulated`).
-/

namespace AnnotatedScheme

namespace Exp

variable {name : String}

theorem mem_namesAll {es : List Exp} : name ∈ namesAll es ↔ ∃ e ∈ es, name ∈ e.names := by
  rw [namesAll_eq_flatMap, List.mem_flatMap]

/-! ## annotations -/

theorem mem_names_of_declared? {d : Exp} {entry : String × Ty} (h : d.declared? = some entry)
    (hname : name ∈ entry.2.names) : name ∈ d.names := by
  cases d with
  | decl x t =>
    obtain rfl := Option.some.inj h
    exact hname
  | _ => simp [declared?] at h

theorem mem_names_of_bound? {b d value : Exp} (h : b.bound? = some (d, value)) :
    name ∈ b.names ↔ name ∈ d.names ∨ name ∈ value.names := by
  cases b with
  | binding | define =>
    obtain ⟨rfl, rfl⟩ := Prod.mk.inj (Option.some.inj h)
    exact List.mem_append
  | _ => simp [bound?] at h

theorem names_frame? {decls : List Exp} {frame : Frame} (h : frame? decls = some frame)
    (hname : name ∈ frame.names) : name ∈ namesAll decls := by
  obtain ⟨entry, hentry, hname⟩ := List.mem_flatMap.mp hname
  obtain ⟨d, hd, hdecl⟩ := exists_of_map_eq (mapM_eq_some_iff.mp h) hentry
  exact mem_namesAll.mpr ⟨d, hd, mem_names_of_declared? hdecl hname⟩

theorem names_boundFrame? {bindings : List Exp} {frame : Frame}
    (h : boundFrame? bindings = some frame) (hname : name ∈ frame.names) :
    name ∈ namesAll bindings := by
  obtain ⟨entry, hentry, hname⟩ := List.mem_flatMap.mp hname
  obtain ⟨b, hb, hbind⟩ := exists_of_map_eq (mapM_eq_some_iff.mp h) hentry
  obtain ⟨⟨d, value⟩, hbound, hdecl⟩ := Option.bind_eq_some_iff.mp hbind
  have hd : name ∈ d.names := mem_names_of_declared? hdecl hname
  exact mem_namesAll.mpr ⟨b, hb, (mem_names_of_bound? hbound).mpr (.inl hd)⟩

theorem names_lambdaType? {value : Exp} {t : Ty} (h : value.lambdaType? = some t)
    (hname : name ∈ t.names) : name ∈ value.names := by
  cases value with
  | lambda params result body =>
    simp only [lambdaType?, Option.bind_eq_bind, Option.bind_eq_some_iff, Option.pure_def,
      Option.some.injEq] at h
    obtain ⟨frame, hframe, rfl⟩ := h
    rw [Ty.names, List.mem_append, Ty.namesAll_eq_flatMap, List.flatMap_map] at hname
    rw [names, List.mem_append, List.mem_append]
    exact .inl (hname.imp_left (names_frame? hframe))
  | _ => simp [lambdaType?] at h

theorem names_lambdaFrame? {bindings : List Exp} {frame : Frame}
    (h : lambdaFrame? bindings = some frame) (hname : name ∈ frame.names) :
    name ∈ namesAll bindings := by
  induction bindings generalizing frame with
  | nil =>
    obtain rfl := Option.some.inj h
    exact absurd hname List.not_mem_nil
  | cons b rest ih =>
    obtain ⟨d, value, t, tail, hb, ht, hrest, rfl⟩ := lambdaFrame?_cons_eq_some_iff.mp h
    rw [namesAll, List.mem_append]
    rw [Frame.names, List.flatMap_append, List.mem_append] at hname
    refine hname.imp (fun hname => ?_) (ih hrest)
    have htype : name ∈ t.names := by
      cases hd : d.variableName? with
      | none => simp [hd] at hname
      | some x => simpa [hd] using hname
    exact (mem_names_of_bound? hb).mpr (.inr (names_lambdaType? ht htype))

/-- the annotations of a part stand in the whole -/
theorem names_of_mem_parts {part whole : Exp} (h : part ∈ whole.parts) (hname : name ∈ part.names) :
    name ∈ whole.names :=
  (nodeOf_of_mem_parts h).names hname

/-! ## environments -/

theorem names_behind {env : Env} {e : Exp} (h : name ∈ (behind env e).names) :
    name ∈ env.names ∨ name ∈ e.names := by
  unfold behind at h
  split at h
  · rename_i env' hscope
    unfold scopeBehind at hscope
    split at hscope
    · rename_i x t value
      rcases Env.names_combine (Except.mapError_eq_ok_iff.mp hscope) h with h | h
      · exact .inl h
      · have hdeclared : Frame.names [(x, t)] = t.names := List.append_nil _
        rw [Env.names_extend, hdeclared, List.mem_append] at h
        exact h.symm.imp_right (List.mem_append_left _)
    · cases hscope
      exact .inl h
  · exact .inl h

theorem names_env_of_mem_scopes {env : Env} {forms : List Exp} {c : Env × Exp}
    (h : c ∈ scopes env forms) (hname : name ∈ c.1.names) :
    name ∈ env.names ∨ name ∈ namesAll forms := by
  induction forms generalizing env with
  | nil => exact absurd h List.not_mem_nil
  | cons e rest ih =>
    rw [namesAll, List.mem_append]
    rcases List.mem_cons.mp h with rfl | h
    · exact .inl hname
    · rcases ih h with h | h
      · exact (names_behind h).imp_right .inl
      · exact .inr (.inr h)

theorem fst_of_mem_inEnv {env : Env} {es : List Exp} {c : Env × Exp} (h : c ∈ inEnv env es) :
    c.1 = env := by
  obtain ⟨e, -, rfl⟩ := List.mem_map.mp h
  rfl

/-- a frame that is put on top, if there is one -/
theorem names_extend_getD {env : Env} {frame : Option Frame} {es : List Exp}
    (h : ∀ f, frame = some f → name ∈ f.names → name ∈ namesAll es)
    (hname : name ∈ (env.extend (frame.getD [])).names) :
    name ∈ env.names ∨ name ∈ namesAll es := by
  rw [Env.names_extend, List.mem_append] at hname
  refine hname.symm.imp_right fun hname => ?_
  cases frame with
  | none => exact absurd hname List.not_mem_nil
  | some f => exact h f rfl hname

theorem names_env_of_mem_checks {env : Env} {e : Exp} {c : Env × Exp} (h : c ∈ e.checks env)
    (hname : name ∈ c.1.names) : name ∈ env.names ∨ name ∈ e.names := by
  cases e with
  | conditional | app | define =>
    rw [fst_of_mem_inEnv h] at hname
    exact .inl hname
  | lambda params result body =>
    rw [fst_of_mem_inEnv h] at hname
    refine (names_extend_getD (fun _ => names_frame?) hname).imp_right fun hname => ?_
    rw [names, List.append_assoc]
    exact List.mem_append_left _ hname
  | letIn bindings body =>
    rcases List.mem_append.mp h with h | h
    · rw [fst_of_mem_inEnv h] at hname
      exact .inl hname
    · rw [fst_of_mem_inEnv h] at hname
      have hnames := names_extend_getD (fun _ => names_boundFrame?) hname
      exact hnames.imp_right (List.mem_append_left _)
  | letrec bindings body =>
    rw [fst_of_mem_inEnv h] at hname
    have hnames := names_extend_getD (fun _ => names_lambdaFrame?) hname
    exact hnames.imp_right (List.mem_append_left _)
  | program forms => exact names_env_of_mem_scopes h hname
  | _ => exact absurd h List.not_mem_nil

/-! ## types -/

theorem names_of_typeInside {value : Value} {t : Ty} (h : value.typeInside = .ok t)
    (hname : name ∈ t.names) : name = "literal" := by
  induction value generalizing t with
  | atom value =>
    obtain rfl := Except.ok.inj h
    cases value with
    | symbol => exact List.mem_singleton.mp hname
    | _ => exact absurd hname List.not_mem_nil
  | empty =>
    obtain rfl := Except.ok.inj h
    exact absurd hname List.not_mem_nil
  | cell first second ihf ihs =>
    simp only [Value.typeInside, Except.bind_eq_ok_iff, Except.pure_eq_ok_iff] at h
    obtain ⟨u, hu, v, hv, rfl⟩ := h
    rcases List.mem_append.mp hname with hname | hname
    · exact ihf hu hname
    · exact ihs hv hname
  | gap => cases h

theorem names_of_typeQuoted {value : Value} {t : Ty} (h : value.typeQuoted = .ok t)
    (hname : name ∈ t.names) : name = "literal" := by
  cases value with
  | cell first second => exact names_of_typeInside h hname
  | _ =>
    obtain rfl := Except.ok.inj h
    exact List.mem_singleton.mp hname

/-- The rule of a form makes no new variables. -/
theorem Rule.names {env : Env} {e : Exp} {ts : List Ty} {t : Ty} (h : Rule env e ts t)
    (hname : name ∈ t.names) :
    name ∈ env.names ∨ name ∈ e.names ∨ name = "literal" ∨ ∃ u ∈ ts, name ∈ u.names := by
  cases h with
  | number | boolean | string | define => exact absurd hname List.not_mem_nil
  | var h => exact .inl (Env.mem_names_of_lookup h hname)
  | quote h => exact .inr (.inr (.inl (names_of_typeQuoted h hname)))
  | conditional => exact .inr (.inr (.inr ⟨t, by simp, hname⟩))
  | lambda hparams hlast =>
    refine .inr (.inl ?_)
    rw [Ty.names, List.mem_append, Ty.namesAll_eq_flatMap, List.flatMap_map] at hname
    rw [Exp.names, List.mem_append, List.mem_append]
    exact .inl (hname.imp_left (names_frame? hparams))
  | app h params =>
    exact .inr (.inr (.inr ⟨_, List.mem_cons_self, List.mem_append_right _ hname⟩))
  | cons h first second =>
    refine .inr (.inr (.inr ?_))
    rcases List.mem_append.mp hname with hname | hname
    · exact ⟨first, by simp, hname⟩
    · exact ⟨second, by simp, hname⟩
  | car => exact .inr (.inr (.inr ⟨_, List.mem_cons_self, List.mem_append_left _ hname⟩))
  | cdr => exact .inr (.inr (.inr ⟨_, List.mem_cons_self, List.mem_append_right _ hname⟩))
  | letIn _ hlast | letrec _ _ hlast =>
    have hmem := List.mem_of_getLast? hlast
    exact .inr (.inr (.inr ⟨t, List.mem_append_right _ hmem, hname⟩))
  | program _ hlast => exact .inr (.inr (.inr ⟨t, List.mem_of_getLast? hlast, hname⟩))

end Exp

/-! ## checks -/

open Supply

/-- The step: the variables in the types of a run are known or drawn if those of each check are. -/
theorem Runs.traced {cs : List (Env × Exp)} {ts : List Ty} {s s' : Supply} {known : String → Prop}
    (runs : Runs cs s ts s')
    (hall : ∀ c ∈ cs, ∀ s₁ t s₂, c.2.typeOf c.1 s₁ = .ok t s₂ →
      Grows s₁ s₂ ∧ ∀ name ∈ t.names, known name ∨ Drawn s₁ s₂ name) :
    Grows s s' ∧ ∀ t ∈ ts, ∀ name ∈ t.names, known name ∨ Drawn s s' name := by
  induction runs with
  | nil => exact ⟨.refl _, nofun⟩
  | @cons env e t s s₁ s' rest ts head tail ih =>
    rw [List.forall_mem_cons] at hall
    obtain ⟨hgrows, ht⟩ := hall.1 s t s₁ head
    obtain ⟨hgrows', hts⟩ := ih hall.2
    refine ⟨hgrows.trans hgrows', List.forall_mem_cons.mpr ⟨fun name hname => ?_, ?_⟩⟩
    · exact (ht name hname).imp_right fun h => h.of_front hgrows'
    · intro u hu name hname
      exact (hts u hu name hname).imp_right fun h => .of_back hgrows h

/-- Every type variable that a check computes stands in the environment or in an annotation, is
`literal`, or was drawn. -/
theorem Exp.typeOf_traced {e : Exp} {env : Env} {s s' : Supply} {t : Ty}
    (h : e.typeOf env s = .ok t s') :
    Grows s s' ∧ ∀ name ∈ t.names,
      (name ∈ env.names ∨ name ∈ e.names ∨ name = "literal") ∨ Drawn s s' name := by
  induction e using Exp.partsInduct generalizing env s t s' with
  | step e ih =>
    rcases primitive_or_not e with ⟨name, rfl⟩ | hprim
    -- only here are names drawn; all other forms pass on what their parts have
    · obtain ⟨signature, -, hrename⟩ := typeOf_primitive_eq_ok_iff.mp h
      obtain ⟨rfl, rfl⟩ := Prod.mk.inj hrename
      exact ⟨(rename_spec signature s).1, fun n hn => .inr (drawn_of_mem_names_rename hn)⟩
    · obtain ⟨ts, runs, hrule⟩ := (typeOf_eq_ok_iff hprim).mp h
      have hparts : Grows s s' ∧ ∀ u ∈ ts, ∀ name ∈ u.names,
          (name ∈ env.names ∨ name ∈ e.names ∨ name = "literal") ∨ Drawn s s' name := by
        refine runs.traced fun c hc s₁ u s₂ hcheck => ?_
        have hpart := mem_parts_of_mem_checks hc
        obtain ⟨hgrows, hnames⟩ := ih c.2 hpart hcheck
        refine ⟨hgrows, fun name hname => (hnames name hname).imp_left ?_⟩
        rintro (h | h | h)
        · exact (names_env_of_mem_checks hc h).imp_right .inl
        · exact .inr (.inl (names_of_mem_parts hpart h))
        · exact .inr (.inr h)
      refine ⟨hparts.1, fun name hname => ?_⟩
      rcases hrule.names hname with h | h | h | ⟨u, hu, h⟩
      · exact .inl (.inl h)
      · exact .inl (.inr (.inl h))
      · exact .inl (.inr (.inr h))
      · exact hparts.2 u hu name h

theorem Exp.typeOfBody_traced {env : Env} {body : List Exp} {s s' : Supply} {t : Ty}
    (h : typeOfBody env body s = .ok t s') :
    Grows s s' ∧ ∀ name ∈ t.names,
      (name ∈ env.names ∨ name ∈ namesAll body ∨ name = "literal") ∨ Drawn s s' name := by
  obtain ⟨ts, runs, hlast⟩ := typeOfBody_eq_ok_iff.mp h
  have hforms : Grows s s' ∧ ∀ u ∈ ts, ∀ name ∈ u.names,
      (name ∈ env.names ∨ name ∈ namesAll body ∨ name = "literal") ∨ Drawn s s' name := by
    refine runs.traced fun c hc s₁ u s₂ hcheck => ?_
    obtain ⟨e, he, rfl⟩ := List.mem_map.mp hc
    obtain ⟨hgrows, hnames⟩ := typeOf_traced hcheck
    refine ⟨hgrows, fun name hname => (hnames name hname).imp_left fun hname => ?_⟩
    exact hname.imp_right fun hname => hname.imp_left fun hname => mem_namesAll.mpr ⟨e, he, hname⟩
  exact ⟨hforms.1, hforms.2 t (List.mem_of_getLast? hlast)⟩

/-! ## runs -/

theorem Runs.grows {cs : List (Env × Exp)} {ts : List Ty} {s s' : Supply} (runs : Runs cs s ts s') :
    Grows s s' := by
  induction runs with
  | nil s => exact .refl s
  | cons head tail ih => exact (Exp.typeOf_traced head).1.trans ih

/-- The step for two runs: what follows a run check by check, with the types and the supplies mapped,
is a run. -/
theorem Runs.simulated {cs ds : List (Env × Exp)} {ts : List Ty} {s s' : Supply}
    {related : Env × Exp → Env × Exp → Prop} (onType : Ty → Ty) (onSupply : Supply → Supply)
    (runs : Runs cs s ts s') (h : List.Forall₂ related cs ds)
    (each : ∀ c ∈ cs, ∀ d, related c d → ∀ s₁ t s₂, s₁.reserved = s.reserved →
      c.2.typeOf c.1 s₁ = .ok t s₂ →
        d.2.typeOf d.1 (onSupply s₁) = .ok (onType t) (onSupply s₂)) :
    Runs ds (onSupply s) (ts.map onType) (onSupply s') := by
  induction runs generalizing ds with
  | nil s =>
    cases h
    exact .nil _
  | @cons env e t s s₁ s' rest ts head tail ih =>
    rw [List.forall_mem_cons] at each
    cases h with
    | @cons _ d _ ds hd hds =>
      have hreserved := (Exp.typeOf_traced head).1.reserved
      refine .cons (each.1 d hd s t s₁ rfl head) (ih hds fun c hc d' hd' s₂ u s₃ hs => ?_)
      exact each.2 c hc d' hd' s₂ u s₃ (hs.trans hreserved)

end AnnotatedScheme
