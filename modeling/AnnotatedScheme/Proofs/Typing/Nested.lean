import AnnotatedScheme.Proofs.Typing.Sequence

/-!
# Definitions as lets

A sequence can be written as a body, in which each definition becomes a let around the forms behind
it (`Exp.nested`). The sequence keeps what is bound already and skips a new definition of it, where
a let hides it; and it refuses a definition of its own name, where a let does not care. So the two
agree just as long as definitions are of new variables and not of their own names (`Exp.Nestable`):
then what is in force behind a definition is the let's frame on top of the environment
(`Exp.scopeBehind_eq_extend`), and both draw the same names (`typeOfForms_eq_ok_iff_nested`).
-/

namespace AnnotatedScheme

namespace Exp

/-- forms as a body, with a let in the place of each definition -/
def nested : List Exp → List Exp
  | [] => []
  | .define d value :: rest => [.letIn [.binding d value] (nested rest)]
  | e :: rest => e :: nested rest

/-- a sequence of forms that defines new variables, each of them once, no variable as a type with
its own name in it, and none at the end -/
structure Nestable (env : Env) (forms : List Exp) : Prop where
  last : ∀ d value, forms.getLast? ≠ some (.define d value)
  distinct : ((forms.filterMap definition?).map Prod.fst).Nodup
  unbound : ∀ entry ∈ forms.filterMap definition?, env.lookup entry.1 = none
  plain : ∀ entry ∈ forms.filterMap definition?, entry.2.occurs entry.1 = false

variable {env : Env} {e d value : Exp} {rest body : List Exp} {x : String} {t u : Ty}
  {s s' : Supply}

/-! ## what is in force behind a form -/

theorem scopeBehind_eq_extend (h : e.definition? = some (x, t)) (unbound : env.lookup x = none)
    (plain : t.occurs x = false) : scopeBehind env e = .ok (env.extend [(x, t)]) := by
  rw [scopeBehind_of_some h, Except.mapError_eq_ok_iff, Env.combine_extend_eq_ok_iff]
  by_cases hempty : env = .empty
  · exact .inl ⟨hempty, rfl⟩
  · have hkeep : env.unbound [(x, t)] = [(x, t)] := by simp [Env.unbound, unbound]
    refine .inr ⟨hempty, Env.recursive?_binding_eq_none_iff.mpr plain, ?_⟩
    rw [hkeep]

theorem Nestable.last_rest (h : Nestable env (e :: rest)) (d value : Exp) :
    rest.getLast? ≠ some (.define d value) := by
  intro hlast
  refine h.last d value ?_
  rw [List.getLast?_cons, hlast]
  rfl

theorem Nestable.rest_of_none (h : Nestable env (e :: rest)) (hdef : e.definition? = none) :
    Nestable env rest := by
  obtain ⟨-, distinct, unbound, plain⟩ := id h
  rw [List.filterMap_cons_none hdef] at distinct unbound plain
  exact ⟨h.last_rest, distinct, unbound, plain⟩

/-- The variable that is defined is not among the later ones, so that these stay unbound. -/
theorem Nestable.rest_of_some (h : Nestable env (e :: rest)) (hdef : e.definition? = some (x, t)) :
    scopeBehind env e = .ok (env.extend [(x, t)]) ∧ Nestable (env.extend [(x, t)]) rest := by
  obtain ⟨-, distinct, unbound, plain⟩ := id h
  rw [List.filterMap_cons_some hdef] at distinct unbound plain
  rw [List.map_cons, List.nodup_cons] at distinct
  rw [List.forall_mem_cons] at unbound plain
  refine ⟨scopeBehind_eq_extend hdef unbound.1 plain.1, h.last_rest, distinct.2, ?_, plain.2⟩
  intro entry hentry
  have hne : entry.1 ≠ x := by
    intro heq
    exact distinct.1 (List.mem_map.mpr ⟨entry, hentry, heq⟩)
  rw [Env.lookup_extend, List.lookup_cons, beq_false_of_ne hne]
  exact unbound.2 entry hentry

/-! ## nested forms -/

theorem definition?_eq_none (h : ∀ d value, e ≠ .define d value) : e.definition? = none := by
  cases e with
  | define d value => exact absurd rfl (h d value)
  | _ => rfl

theorem nested_cons (h : ∀ d value, e ≠ .define d value) (rest : List Exp) :
    nested (e :: rest) = e :: nested rest := by
  cases e with
  | define d value => exact absurd rfl (h d value)
  | _ => rfl

theorem nested_ne_nil (h : rest ≠ []) : nested rest ≠ [] := by
  cases rest with
  | nil => exact absurd rfl h
  | cons e rest => cases e <;> exact List.cons_ne_nil _ _

theorem typeOf_letIn_single_iff :
    (Exp.letIn [.binding d value] body).typeOf env s = .ok t s' ↔
      ∃ x u s₁, d.declared? = some (x, u) ∧ value.typeOf env s = .ok u s₁ ∧
        typeOfBody (env.extend [(x, u)]) body s₁ = .ok t s' := by
  rw [typeOf_letIn_eq_ok_iff]
  constructor
  · rintro ⟨frame, s₁, hframe, runs, hbody⟩
    obtain ⟨_, _, ⟨x, u⟩, tail, hbound, hd, htail, rfl⟩ := boundFrame?_cons_eq_some_iff.mp hframe
    obtain ⟨rfl, rfl⟩ := Prod.mk.inj (Option.some.inj hbound)
    obtain rfl := Option.some.inj htail
    obtain ⟨s₂, hvalue, runs⟩ := Runs.cons_iff.mp runs
    obtain ⟨-, rfl⟩ := Runs.nil_iff.mp runs
    exact ⟨x, u, s₂, hd, hvalue, hbody⟩
  · rintro ⟨x, u, s₁, hd, hvalue, hbody⟩
    refine ⟨[(x, u)], s₁, ?_, .cons hvalue (.nil s₁), hbody⟩
    exact boundFrame?_cons_eq_some_iff.mpr ⟨d, value, (x, u), [], rfl, hd, rfl, rfl⟩

/-- The step: a definition in front of forms is a let around them. -/
theorem typeOfForms_define_iff (hrest : rest ≠ []) (h : Nestable env (.define d value :: rest)) :
    typeOfForms env (.define d value :: rest) s = .ok t s' ↔
      ∃ x u s₁, d.declared? = some (x, u) ∧ value.typeOf env s = .ok u s₁ ∧
        typeOfForms (env.extend [(x, u)]) rest s₁ = .ok t s' := by
  rw [typeOfForms_cons_eq_ok_iff hrest]
  constructor
  · rintro ⟨_, s₁, env', hdefine, hscope, htail⟩
    obtain ⟨x, u, hd, hvalue, -⟩ := typeOf_define_eq_ok_iff.mp hdefine
    obtain ⟨hbehind, -⟩ := h.rest_of_some hd
    obtain rfl := Except.ok.inj (hscope.symm.trans hbehind)
    exact ⟨x, u, s₁, hd, hvalue, htail⟩
  · rintro ⟨x, u, s₁, hd, hvalue, htail⟩
    obtain ⟨hbehind, -⟩ := h.rest_of_some hd
    refine ⟨.void, s₁, env.extend [(x, u)], ?_, hbehind, htail⟩
    exact typeOf_define_eq_ok_iff.mpr ⟨x, u, hd, hvalue, rfl⟩

/-- The step: other forms in front are typed, and nothing comes of them. -/
theorem typeOfForms_other_iff (hrest : rest ≠ []) (hdef : e.definition? = none) :
    typeOfForms env (e :: rest) s = .ok t s' ↔
      ∃ u s₁, e.typeOf env s = .ok u s₁ ∧ typeOfForms env rest s₁ = .ok t s' := by
  have hscope : scopeBehind env e = .ok env := scopeBehind_of_none hdef
  rw [typeOfForms_cons_eq_ok_iff hrest]
  constructor
  · rintro ⟨u, s₁, env', head, hscope', tail⟩
    obtain rfl := Except.ok.inj (hscope'.symm.trans hscope)
    exact ⟨u, s₁, head, tail⟩
  · rintro ⟨u, s₁, head, tail⟩
    exact ⟨u, s₁, env, head, hscope, tail⟩

end Exp

open Exp

/-- A sequence that defines new variables only has a type just if its forms have it as a body with
lets, from the same supply, and both leave the same supply. -/
theorem typeOfForms_eq_ok_iff_nested {env : Env} {forms : List Exp} (h : Nestable env forms) (t : Ty)
    (s s' : Supply) :
    typeOfForms env forms s = .ok t s' ↔ typeOfBody env (nested forms) s = .ok t s' := by
  induction forms generalizing env s with
  | nil => exact iff_of_false Check.throw_ne_ok Check.throw_ne_ok
  | cons e rest ih =>
    by_cases hdefine : ∃ d value, e = .define d value
    · obtain ⟨d, value, rfl⟩ := hdefine
      have hrest : rest ≠ [] := by
        rintro rfl
        exact h.last d value rfl
      rw [typeOfForms_define_iff hrest h, nested, typeOfBody_singleton_eq_ok_iff,
        typeOf_letIn_single_iff]
      refine exists_congr fun x => exists_congr fun u => exists_congr fun s₁ => ?_
      refine and_congr_right fun hd => and_congr_right fun _ => ?_
      exact ih (h.rest_of_some hd).2 s₁
    · have hother : ∀ d value, e ≠ .define d value := by
        intro d value heq
        exact hdefine ⟨d, value, heq⟩
      have hdef : e.definition? = none := definition?_eq_none hother
      rw [nested_cons hother]
      cases rest with
      | nil =>
        rw [typeOfForms_singleton_eq_ok_iff, nested, typeOfBody_singleton_eq_ok_iff]
        exact and_iff_left ⟨env, scopeBehind_of_none hdef⟩
      | cons next rest =>
        have hrest : next :: rest ≠ [] := List.cons_ne_nil next rest
        rw [typeOfForms_other_iff hrest hdef, typeOfBody_cons_eq_ok_iff (nested_ne_nil hrest)]
        refine exists_congr fun u => exists_congr fun s₁ => and_congr_right fun _ => ?_
        exact ih (h.rest_of_none hdef) s₁

/-- definitions of a procedure and of a number, with references to primitives between them -/
def identityAndNumber : List Exp :=
  [.define (.decl "id" (.proc [.var "T"] (.var "T")))
      (.lambda [.decl "x" (.var "T")] (.var "T") [.var "x"]),
    .primitive "eq?",
    .define (.decl "k" .number) (.app (.primitive "+") [.var "n", .var "n"]),
    .app (.primitive "cons") [.primitive "number?", .app (.primitive "cons") [.var "k", .var "id"]]]

theorem identityAndNumber_nested :
    Nestable ⟨[[("n", .number)]]⟩ identityAndNumber ∧
      typeOfForms ⟨[[("n", .number)]]⟩ identityAndNumber (.start ["T"]) =
        .ok (.pair (.proc [.var "T_3"] .boolean)
          (.pair .number (.proc [.var "T"] (.var "T")))) ⟨["T"], 4⟩ ∧
      typeOfBody ⟨[[("n", .number)]]⟩ (nested identityAndNumber) (.start ["T"]) =
        .ok (.pair (.proc [.var "T_3"] .boolean)
          (.pair .number (.proc [.var "T"] (.var "T")))) ⟨["T"], 4⟩ := by
  have nestable : Nestable ⟨[[("n", .number)]]⟩ identityAndNumber := by
    refine ⟨fun d value hlast => ?_, by decide, by decide, by decide⟩
    cases Option.some.inj hlast
  have typed : typeOfForms ⟨[[("n", .number)]]⟩ identityAndNumber (.start ["T"]) =
      .ok (.pair (.proc [.var "T_3"] .boolean)
        (.pair .number (.proc [.var "T"] (.var "T")))) ⟨["T"], 4⟩ :=
    Check.run?_eq_some_iff.mp (by decide +kernel)
  exact ⟨nestable, typed, (typeOfForms_eq_ok_iff_nested nestable _ _ _).mp typed⟩

end AnnotatedScheme
