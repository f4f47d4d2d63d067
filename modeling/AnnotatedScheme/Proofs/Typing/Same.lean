import AnnotatedScheme.Proofs.Typing.Free
import AnnotatedScheme.Proofs.Typing.Names
import AnnotatedScheme.Proofs.Typing.Sequence

/-!
# Environments with the same look-ups

Two environments can be put together differently and still bind the same variables to the same
types. A check tells them apart only if one of them is empty, where a definition of its own name is
let through. `Env.Same` says that neither shows, and `Env.SameOn` that it does not as far as some
variables go.

* `Env.same_extend_of_perm`   the order of a frame does not show if each variable stands in it once;
* `Env.SameOn.behind`         a difference that does not show does not do so behind a form;
* `Exp.typeOf_sameOn`         the same type comes out of a check where the free variables are the
                              same, programs included;
* `Exp.runs_same`, `Exp.typeOfBody_same`  the case that all variables are.
-/

namespace AnnotatedScheme

/-! ## environments -/

namespace Env

structure Same (env₁ env₂ : Env) : Prop where
  lookup : ∀ x, env₁.lookup x = env₂.lookup x
  empty : env₁ = .empty ↔ env₂ = .empty

/-- the same look-ups of the variables in `names` -/
structure SameOn (names : List String) (env₁ env₂ : Env) : Prop where
  agree : AgreeOn names env₁ env₂
  empty : env₁ = .empty ↔ env₂ = .empty

variable {env₁ env₂ : Env} {frame frame' : Frame} {names names' : List String}

theorem Same.refl (env : Env) : Same env env := ⟨fun _ => rfl, Iff.rfl⟩

theorem Same.on (h : Same env₁ env₂) (names : List String) : SameOn names env₁ env₂ :=
  ⟨fun x _ => h.lookup x, h.empty⟩

theorem SameOn.mono (h : SameOn names env₁ env₂) (hsub : ∀ x ∈ names', x ∈ names) :
    SameOn names' env₁ env₂ :=
  ⟨h.agree.mono hsub, h.empty⟩

theorem same_extend_of_perm (env : Env) (perm : frame.Perm frame')
    (distinct : (frame.map Prod.fst).Nodup) : Same (env.extend frame) (env.extend frame') := by
  refine ⟨fun x => ?_, iff_of_false (extend_ne_empty _ _) (extend_ne_empty _ _)⟩
  rw [lookup_extend, lookup_extend, lookup_eq_of_perm perm distinct]

/-- under a frame, neither environment is empty any more -/
theorem AgreeOn.sameOn_extend (h : AgreeOn (names.filter (· ∉ frame.map Prod.fst)) env₁ env₂) :
    SameOn names (env₁.extend frame) (env₂.extend frame) :=
  ⟨h.extend, iff_of_false (extend_ne_empty _ _) (extend_ne_empty _ _)⟩

theorem SameOn.behind (h : SameOn names env₁ env₂) (e : Exp) :
    SameOn names (Exp.behind env₁ e) (Exp.behind env₂ e) := by
  constructor
  · intro x hx
    by_cases hself : e.SelfNaming → env₁ = .empty
    · obtain ⟨env₁', hscope₁⟩ := Exp.scopeBehind_isOk_iff.mpr hself
      obtain ⟨env₂', hscope₂⟩ :=
        Exp.scopeBehind_isOk_iff.mpr fun hself' => h.empty.mp (hself hself')
      rw [Exp.behind_of_ok hscope₁, Exp.behind_of_ok hscope₂, Exp.lookup_of_scopeBehind hscope₁,
        Exp.lookup_of_scopeBehind hscope₂, h.agree x hx]
    · have hnot₁ : ¬∃ env', Exp.scopeBehind env₁ e = .ok env' := fun hok =>
        hself (Exp.scopeBehind_isOk_iff.mp hok)
      have hnot₂ : ¬∃ env', Exp.scopeBehind env₂ e = .ok env' := fun hok =>
        hself fun hself' => h.empty.mpr (Exp.scopeBehind_isOk_iff.mp hok hself')
      rw [Exp.behind_of_not_ok hnot₁, Exp.behind_of_not_ok hnot₂]
      exact h.agree x hx
  · rw [Exp.behind_eq_empty_iff, Exp.behind_eq_empty_iff, h.empty]

end Env

/-! ## checks -/

/-- the same expression in environments with the same look-ups -/
def SameCheck (c₁ c₂ : Env × Exp) : Prop := c₁.1.Same c₂.1 ∧ c₁.2 = c₂.2

/-- the same expression in environments with the same look-ups of its free variables -/
def SameFree (c₁ c₂ : Env × Exp) : Prop := Env.SameOn c₁.2.free c₁.1 c₂.1 ∧ c₁.2 = c₂.2

namespace Exp

variable {env₁ env₂ : Env}

theorem same_inEnv (h : env₁.Same env₂) (es : List Exp) :
    List.Forall₂ SameCheck (inEnv env₁ es) (inEnv env₂ es) := by
  rw [inEnv, inEnv, List.forall₂_map_left_iff, List.forall₂_map_right_iff]
  exact List.forall₂_same.mpr fun e _ => ⟨h, rfl⟩

theorem sameFree_inEnv {es : List Exp} (h : Env.SameOn (freeAll es) env₁ env₂) :
    List.Forall₂ SameFree (inEnv env₁ es) (inEnv env₂ es) := by
  rw [inEnv, inEnv, List.forall₂_map_left_iff, List.forall₂_map_right_iff]
  refine List.forall₂_same.mpr fun e he => ⟨h.mono fun x hx => ?_, rfl⟩
  exact mem_freeAll.mpr ⟨e, he, hx⟩

theorem sameFree_scopes {forms : List Exp} (h : Env.SameOn (freeAll forms) env₁ env₂) :
    List.Forall₂ SameFree (scopes env₁ forms) (scopes env₂ forms) := by
  induction forms generalizing env₁ env₂ with
  | nil => exact .nil
  | cons e rest ih =>
    refine .cons ⟨h.mono fun x => List.mem_append_left _, rfl⟩ (ih (Env.SameOn.behind ?_ e))
    exact h.mono fun x => List.mem_append_right _

variable {e : Exp} {ts : List Ty} {t : Ty}

/-- The frames of a form that obeys its rule bind the variables that are not free in it. -/
theorem Rule.sameFree_checks (hrule : Rule env₁ e ts t) (h : Env.SameOn e.free env₁ env₂) :
    List.Forall₂ SameFree (e.checks env₁) (e.checks env₂) := by
  cases hrule with
  | number | boolean | string | var | quote => exact .nil
  | conditional =>
    refine sameFree_inEnv (h.mono fun x hx => ?_)
    simpa [freeAll, free] using hx
  | define =>
    refine sameFree_inEnv (h.mono fun x hx => ?_)
    simpa [freeAll, free] using hx
  | lambda hparams =>
    rw [checks, checks, hparams]
    refine sameFree_inEnv (Env.AgreeOn.sameOn_extend ?_)
    rw [Option.getD_some, map_fst_frame? hparams]
    exact h.agree
  | @app operator operands hop =>
    refine sameFree_inEnv (h.mono fun x hx => ?_)
    rw [hop] at hx
    exact hx
  | @cons operator operands hop | @car operator operands hop | @cdr operator operands hop =>
    refine sameFree_inEnv (h.mono fun x hx => ?_)
    rw [hop] at hx
    exact List.mem_append_right _ hx
  | @letIn bindings body frame _ _ hframe =>
    rw [checks, checks, hframe, Option.getD_some]
    refine List.rel_append (sameFree_inEnv ?_) (sameFree_inEnv (Env.AgreeOn.sameOn_extend ?_))
    · exact h.mono fun x hx => List.mem_append_left _ (mem_freeAll_values hx)
    · rw [map_fst_boundFrame? hframe]
      exact h.agree.mono fun x => List.mem_append_right _
  | @letrec bindings body frame _ _ _ hframe =>
    rw [checks, checks, hframe, Option.getD_some]
    refine sameFree_inEnv (Env.AgreeOn.sameOn_extend ?_)
    rw [map_fst_lambdaFrame? hframe]
    refine h.agree.mono fun x hx => ?_
    obtain ⟨hx, hbound⟩ := List.mem_filter.mp hx
    refine List.mem_filter.mpr ⟨List.mem_append.mpr ?_, hbound⟩
    exact (mem_freeAll_append.mp hx).imp_left mem_freeAll_values
  | program => exact sameFree_scopes h

theorem Rule.sameOn (hrule : Rule env₁ e ts t) (h : Env.SameOn e.free env₁ env₂) :
    Rule env₂ e ts t := by
  cases hrule with
  | number value => exact .number value
  | boolean value => exact .boolean value
  | string content => exact .string content
  | var hlookup => exact .var ((h.agree _ List.mem_cons_self).symm.trans hlookup)
  | quote hvalue => exact .quote hvalue
  | conditional t => exact .conditional t
  | lambda hparams hlast => exact .lambda hparams hlast
  | app hop params => exact .app hop params t
  | cons hop first second => exact .cons hop first second
  | car hop => exact .car hop _ _
  | cdr hop => exact .cdr hop _ _
  | letIn hframe hlast => exact .letIn hframe hlast
  | letrec hframe htypes hlast => exact .letrec hframe htypes hlast
  | define hd => exact .define hd
  | program hscopes hlast =>
    refine .program (forall_scopeBehind_isOk_iff.mpr ?_) hlast
    unfold HasLateSelfNaming
    rw [Ne, ← h.empty]
    exact forall_scopeBehind_isOk_iff.mp hscopes

end Exp

/-- The step: a run goes through in environments with the same look-ups if each check does. -/
theorem Runs.sameFree {cs ds : List (Env × Exp)} {ts : List Ty} {s s' : Supply}
    (runs : Runs cs s ts s') (h : List.Forall₂ SameFree cs ds)
    (hall : ∀ c ∈ cs, ∀ env s₁ t s₂, Env.SameOn c.2.free c.1 env → c.2.typeOf c.1 s₁ = .ok t s₂ →
      c.2.typeOf env s₁ = .ok t s₂) : Runs ds s ts s' := by
  have runs' := runs.simulated id id h ?_
  · rwa [List.map_id] at runs'
  · rintro c hc d ⟨henv, hexp⟩ s₁ t s₂ - hcheck
    rw [← hexp]
    exact hall c hc d.1 s₁ t s₂ henv hcheck

namespace Exp

variable {env₁ env₂ : Env} {s s' : Supply} {t : Ty} {body : List Exp}

theorem typeOf_sameOn {e : Exp} (h : Env.SameOn e.free env₁ env₂)
    (typed : e.typeOf env₁ s = .ok t s') : e.typeOf env₂ s = .ok t s' := by
  induction e using partsInduct generalizing env₁ env₂ s t s' with
  | step e ih =>
    rcases primitive_or_not e with ⟨name, rfl⟩ | hprim
    · exact typeOf_primitive_eq_ok_iff.mpr (typeOf_primitive_eq_ok_iff.mp typed)
    · obtain ⟨ts, runs, hrule⟩ := (typeOf_eq_ok_iff hprim).mp typed
      have runs' := runs.sameFree (hrule.sameFree_checks h) fun c hc env s₁ u s₂ hsame hcheck =>
        ih c.2 (mem_parts_of_mem_checks hc) hsame hcheck
      exact (typeOf_eq_ok_iff hprim).mpr ⟨ts, runs', hrule.sameOn h⟩

theorem typeOfBody_sameOn (h : Env.SameOn (freeAll body) env₁ env₂)
    (typed : typeOfBody env₁ body s = .ok t s') : typeOfBody env₂ body s = .ok t s' := by
  obtain ⟨ts, runs, hlast⟩ := typeOfBody_eq_ok_iff.mp typed
  have runs' := runs.sameFree (sameFree_inEnv h) fun _ _ _ _ _ _ hsame hcheck =>
    typeOf_sameOn hsame hcheck
  exact typeOfBody_eq_ok_iff.mpr ⟨ts, runs', hlast⟩

/-! ### all variables -/

theorem runs_same {cs ds : List (Env × Exp)} {ts : List Ty} (runs : Runs cs s ts s')
    (h : List.Forall₂ SameCheck cs ds) : Runs ds s ts s' := by
  have hfree : List.Forall₂ SameFree cs ds := h.imp fun _ _ hsame => hsame.imp_left fun h => h.on _
  exact runs.sameFree hfree fun _ _ _ _ _ _ hsame hcheck => typeOf_sameOn hsame hcheck

theorem typeOfBody_same (h : env₁.Same env₂) (typed : typeOfBody env₁ body s = .ok t s') :
    typeOfBody env₂ body s = .ok t s' :=
  typeOfBody_sameOn (h.on _) typed

end Exp

end AnnotatedScheme
