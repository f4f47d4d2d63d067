import AnnotatedScheme.Proofs.Env.Basic
import AnnotatedScheme.Proofs.Typing.Rule

/-!
# Free variables

Of an environment, a check sees the bindings of the free variables and nothing else: neither how
they are put into frames, nor what else is bound, nor what is hidden (`typeOf_eq_of_free`).

* `Exp.free`                the variables of an expression that are not bound in it;
* `Env.AgreeOn`             environments that bind some variables to the same types, or not at all;
* `Env.AgreeOn.extend`      a frame on top of both decides the variables that it binds;
* `Check.bind_congr`        a check goes on alike if it does so for the results that it can have;
* `Exp.Alike`               an expression that is checked alike in two environments, in each of the
                            two ways to check it: by itself, and as a lambda of a letrec.

The statements are about checks, not about their results, so that they hold of failures too.
-/

namespace AnnotatedScheme

/-! ## environments that agree -/

namespace Env

def AgreeOn (names : List String) (env₁ env₂ : Env) : Prop :=
  ∀ x ∈ names, env₁.lookup x = env₂.lookup x

variable {names names' : List String} {env₁ env₂ : Env}

theorem AgreeOn.mono (h : AgreeOn names env₁ env₂) (hsub : ∀ x ∈ names', x ∈ names) :
    AgreeOn names' env₁ env₂ :=
  fun x hx => h x (hsub x hx)

theorem AgreeOn.extend {frame : Frame}
    (h : AgreeOn (names.filter (· ∉ frame.map Prod.fst)) env₁ env₂) :
    AgreeOn names (env₁.extend frame) (env₂.extend frame) := by
  intro x hx
  rw [lookup_extend, lookup_extend]
  cases hlookup : frame.lookup x with
  | some t => rfl
  | none =>
    have hbound := lookup_eq_none_iff_not_mem.mp hlookup
    exact h x (List.mem_filter.mpr ⟨hx, decide_eq_true hbound⟩)

/-- a frame changes nothing for other variables than its own -/
theorem agreeOn_extend {frame : Frame} {env : Env} (h : ∀ x ∈ names, x ∉ frame.map Prod.fst) :
    AgreeOn names env (env.extend frame) :=
  fun x hx => (lookup_extend_of_not_mem (h x hx)).symm

end Env

namespace Exp

/-! ## free variables -/

/-- the variables that bindings bind -/
def boundNames (bindings : List Exp) : List String :=
  bindings.filterMap fun b => b.bound?.bind fun p => p.1.variableName?

mutual
/-- the variables of an expression that are not bound in it. Parameters are bound in the body, the
variables of a let in its body, those of a letrec in its values as well. A definition hides no
binding from the forms behind it, so that nothing is bound in a program. -/
def free : Exp → List String
  | .var name => [name]
  | .conditional test consequent alternative => test.free ++ consequent.free ++ alternative.free
  | .lambda params _ body => (freeAll body).filter (· ∉ params.filterMap variableName?)
  | .app operator operands => operator.free ++ freeAll operands
  | .letIn bindings body =>
    freeAll bindings ++ (freeAll body).filter (· ∉ boundNames bindings)
  | .letrec bindings body =>
    (freeAll bindings ++ freeAll body).filter (· ∉ boundNames bindings)
  | .define _ value => value.free
  | .program forms => freeAll forms
  | .binding _ value => value.free
  | _ => []

def freeAll : List Exp → List String
  | [] => []
  | e :: rest => e.free ++ freeAll rest
end

variable {x : String}

theorem mem_freeAll {es : List Exp} : x ∈ freeAll es ↔ ∃ e ∈ es, x ∈ e.free := by
  induction es with
  | nil => simp [freeAll]
  | cons e rest ih => simp [freeAll, ih]

theorem mem_freeAll_of_mem_values {bindings : List Exp} {value : Exp}
    (h : value ∈ values bindings) (hx : x ∈ value.free) : x ∈ freeAll bindings := by
  obtain ⟨b, hb, d, hbound⟩ := mem_values_iff.mp h
  refine mem_freeAll.mpr ⟨b, hb, ?_⟩
  cases b with
  | binding | define =>
    obtain ⟨rfl, rfl⟩ := Prod.mk.inj (Option.some.inj hbound)
    exact hx
  | _ => cases hbound

theorem mem_freeAll_append {es es' : List Exp} :
    x ∈ freeAll (es ++ es') ↔ x ∈ freeAll es ∨ x ∈ freeAll es' := by
  simp only [mem_freeAll, List.mem_append, or_and_right, exists_or]

theorem mem_freeAll_values {bindings : List Exp} (hx : x ∈ freeAll (values bindings)) :
    x ∈ freeAll bindings := by
  obtain ⟨value, hvalue, hx⟩ := mem_freeAll.mp hx
  exact mem_freeAll_of_mem_values hvalue hx

/-! ### the variables of a frame -/

theorem variableName?_of_declared? {d : Exp} {entry : String × Ty} (h : d.declared? = some entry) :
    d.variableName? = some entry.1 := by
  cases d with
  | decl name t =>
    obtain rfl := Option.some.inj h
    rfl
  | _ => cases h

theorem map_fst_frame? {decls : List Exp} {frame : Frame} (h : frame? decls = some frame) :
    frame.map Prod.fst = decls.filterMap variableName? :=
  (filterMap_of_mapM h fun _ _ => variableName?_of_declared?).symm

theorem map_fst_boundFrame? {bindings : List Exp} {frame : Frame}
    (h : boundFrame? bindings = some frame) : frame.map Prod.fst = boundNames bindings := by
  refine (filterMap_of_mapM h fun b entry hentry => ?_).symm
  obtain ⟨p, hb, hd⟩ := Option.bind_eq_some_iff.mp hentry
  rw [hb]
  exact variableName?_of_declared? hd

theorem map_fst_lambdaFrame? {bindings : List Exp} {frame : Frame}
    (h : lambdaFrame? bindings = some frame) : frame.map Prod.fst = boundNames bindings := by
  induction bindings generalizing frame with
  | nil =>
    obtain rfl := Option.some.inj h
    rfl
  | cons b rest ih =>
    obtain ⟨d, value, t, tail, hb, -, hrest, rfl⟩ := lambdaFrame?_cons_eq_some_iff.mp h
    rw [List.map_append, ih hrest, boundNames, boundNames, List.filterMap_cons, hb]
    dsimp only [Option.bind_some]
    cases d.variableName? <;> rfl

end Exp

/-! ## checks that go on alike -/

theorem Check.bind_congr {α β : Type} {check : Check α} {next next' : α → Check β}
    (h : ∀ a s s', check s = .ok a s' → next a = next' a) : check >>= next = check >>= next' := by
  funext s
  show EStateM.bind check next s = EStateM.bind check next' s
  unfold EStateM.bind
  cases hcheck : check s with
  | ok a s' =>
    show next a s' = next' a s'
    rw [h a s s' hcheck]
  | error e s' => rfl

namespace Exp

section

variable {env₁ env₂ : Env} {es : List Exp} (each : ∀ e ∈ es, e.typeOf env₁ = e.typeOf env₂)
include each

theorem typeOfBody_congr : typeOfBody env₁ es = typeOfBody env₂ es := by
  induction es with
  | nil => rfl
  | cons e rest ih =>
    rw [List.forall_mem_cons] at each
    rw [typeOfBody, typeOfBody, each.1, ih each.2]

theorem checkOperands_congr (site : Exp) (params : List Ty) :
    checkOperands env₁ site es params = checkOperands env₂ site es params := by
  induction es generalizing params with
  | nil => cases params <;> rfl
  | cons e rest ih =>
    rw [List.forall_mem_cons] at each
    cases params with
    | nil => rfl
    | cons t params => rw [checkOperands, checkOperands, each.1, ih each.2]

theorem typeOfCons_congr (site : Exp) : typeOfCons env₁ site es = typeOfCons env₂ site es := by
  match es with
  | [a, b] => rw [typeOfCons, typeOfCons, each a (by simp), each b (by simp)]
  | [] | [_] | _ :: _ :: _ :: _ => rfl

theorem typeOfAccess_congr (access : PairOperator) (site : Exp) :
    typeOfAccess env₁ access site es = typeOfAccess env₂ access site es := by
  match es with
  | [a] => rw [typeOfAccess, typeOfAccess, each a (by simp)]
  | [] | _ :: _ :: _ => rfl

end

section

variable {env₁ env₂ : Env} {bindings : List Exp} (site : Exp)

theorem values_cons_of_none {b : Exp} (h : b.bound? = none) (rest : List Exp) :
    values (b :: rest) = values rest := by
  simp [values, h]

theorem frameOfLet_congr (each : ∀ value ∈ values bindings, value.typeOf env₁ = value.typeOf env₂) :
    frameOfLet env₁ site bindings = frameOfLet env₂ site bindings := by
  induction bindings with
  | nil => rfl
  | cons b rest ih =>
    cases hb : b.bound? with
    | some p =>
      rw [values_cons hb, List.forall_mem_cons] at each
      rw [frameOfLet_cons hb, frameOfLet_cons hb, each.1, ih each.2]
    | none =>
      cases b with
      | binding | define => cases hb
      | quote value => cases value <;> rfl
      | _ => rfl

theorem checkLambdas_congr
    (each : ∀ value ∈ values bindings, checkLambda env₁ site value = checkLambda env₂ site value) :
    checkLambdas env₁ site bindings = checkLambdas env₂ site bindings := by
  induction bindings with
  | nil => rfl
  | cons b rest ih =>
    cases hb : b.bound? with
    | some p =>
      rw [values_cons hb, List.forall_mem_cons] at each
      rw [checkLambdas_cons hb, checkLambdas_cons hb, each.1, ih each.2]
    | none =>
      rw [values_cons_of_none hb] at each
      have hskip : ∀ env, checkLambdas env site (b :: rest) = checkLambdas env site rest := by
        intro env
        cases b with
        | binding | define => cases hb
        | _ => rfl
      rw [hskip, hskip, ih each]

end

/-! ## the checks of a form -/

/-- two environments make no difference to the checks of an expression -/
structure Alike (env₁ env₂ : Env) (e : Exp) : Prop where
  typeOf : e.typeOf env₁ = e.typeOf env₂
  checkLambda : ∀ site, Exp.checkLambda env₁ site e = Exp.checkLambda env₂ site e

/-- what is said of an expression: only the bindings of its free variables matter -/
def SeesFree (e : Exp) : Prop := ∀ env₁ env₂, Env.AgreeOn e.free env₁ env₂ → Alike env₁ env₂ e

variable {env₁ env₂ : Env} {body : List Exp}

theorem typeOfBody_eq_of_agreeOn (each : ∀ e ∈ body, e.SeesFree)
    (h : Env.AgreeOn (freeAll body) env₁ env₂) : typeOfBody env₁ body = typeOfBody env₂ body :=
  typeOfBody_congr fun e he =>
    (each e he env₁ env₂ (h.mono fun _ hx => mem_freeAll.mpr ⟨e, he, hx⟩)).typeOf

theorem alike_lambda {params : List Exp} {result : Ty} (each : ∀ e ∈ body, e.SeesFree)
    (h : Env.AgreeOn (Exp.lambda params result body).free env₁ env₂) :
    Alike env₁ env₂ (.lambda params result body) := by
  have hbody : ∀ frame, frame? params = some frame →
      typeOfBody (env₁.extend frame) body = typeOfBody (env₂.extend frame) body := by
    intro frame hframe
    refine typeOfBody_eq_of_agreeOn each (Env.AgreeOn.extend ?_)
    rw [map_fst_frame? hframe]
    exact h
  constructor
  · rw [Exp.typeOf, Exp.typeOf]
    cases hframe : frame? params with
    | none => rfl
    | some frame =>
      dsimp only
      rw [hbody frame hframe]
  · intro site
    rw [checkLambda, checkLambda]
    cases hframe : frame? params with
    | none => rfl
    | some frame =>
      dsimp only
      rw [hbody frame hframe]

theorem typeOf_letIn_eq {bindings : List Exp} (hvalues : ∀ e ∈ values bindings, e.SeesFree)
    (each : ∀ e ∈ body, e.SeesFree) (h : Env.AgreeOn (Exp.letIn bindings body).free env₁ env₂) :
    (Exp.letIn bindings body).typeOf env₁ = (Exp.letIn bindings body).typeOf env₂ := by
  have hframe : frameOfLet env₁ (.letIn bindings body) bindings =
      frameOfLet env₂ (.letIn bindings body) bindings := by
    refine frameOfLet_congr _ fun value hvalue => (hvalues value hvalue env₁ env₂ ?_).typeOf
    exact h.mono fun x hx => List.mem_append_left _ (mem_freeAll_of_mem_values hvalue hx)
  rw [Exp.typeOf, Exp.typeOf, hframe]
  refine Check.bind_congr fun frame s s' hchecked => ?_
  obtain ⟨hbound, -⟩ := frameOfLet_eq_ok_iff.mp hchecked
  refine typeOfBody_eq_of_agreeOn each (Env.AgreeOn.extend ?_)
  rw [map_fst_boundFrame? hbound]
  exact h.mono fun x => List.mem_append_right _

theorem typeOf_letrec_eq {bindings : List Exp} (hvalues : ∀ e ∈ values bindings, e.SeesFree)
    (each : ∀ e ∈ body, e.SeesFree) (h : Env.AgreeOn (Exp.letrec bindings body).free env₁ env₂) :
    (Exp.letrec bindings body).typeOf env₁ = (Exp.letrec bindings body).typeOf env₂ := by
  rw [Exp.typeOf, Exp.typeOf]
  cases hframe : lambdaFrame? bindings with
  | none => rfl
  | some frame =>
    have hagree : Env.AgreeOn (freeAll bindings ++ freeAll body) (env₁.extend frame)
        (env₂.extend frame) := by
      apply Env.AgreeOn.extend
      rw [map_fst_lambdaFrame? hframe]
      exact h
    have hlambdas : checkLambdas (env₁.extend frame) (.letrec bindings body) bindings =
        checkLambdas (env₂.extend frame) (.letrec bindings body) bindings := by
      refine checkLambdas_congr _ fun value hvalue => ?_
      refine (hvalues value hvalue _ _ (hagree.mono fun x hx => ?_)).checkLambda _
      exact List.mem_append_left _ (mem_freeAll_of_mem_values hvalue hx)
    have hbody : typeOfBody (env₁.extend frame) body = typeOfBody (env₂.extend frame) body :=
      typeOfBody_eq_of_agreeOn each (hagree.mono fun x => List.mem_append_right _)
    dsimp only
    rw [hlambdas, hbody]

theorem typeOf_app_eq {operator : Exp} {operands : List Exp}
    (each : ∀ e ∈ (Exp.app operator operands).parts, e.SeesFree)
    (h : Env.AgreeOn (Exp.app operator operands).free env₁ env₂) :
    (Exp.app operator operands).typeOf env₁ = (Exp.app operator operands).typeOf env₂ := by
  have hoperands : (∀ e ∈ operands, e.SeesFree) →
      ∀ e ∈ operands, e.typeOf env₁ = e.typeOf env₂ := by
    intro each e he
    refine (each e he env₁ env₂ (h.mono fun x hx => ?_)).typeOf
    exact List.mem_append_right _ (mem_freeAll.mpr ⟨e, he, hx⟩)
  rw [Exp.typeOf, Exp.typeOf]
  rw [parts] at each
  cases hop : PairOperator.ofExp? operator with
  | some op =>
    rw [hop] at each
    cases op with
    | cons => exact typeOfCons_congr (hoperands each) _
    | car | cdr => exact typeOfAccess_congr (hoperands each) _ _
  | none =>
    rw [hop] at each
    obtain ⟨hoperator, each⟩ := List.forall_mem_cons.mp each
    have htype := (hoperator env₁ env₂ (h.mono fun x => List.mem_append_left _)).typeOf
    dsimp only
    rw [htype]
    simp only [checkOperands_congr (hoperands each)]

/-- Only the bindings of free variables matter, to the types and to the failures. -/
theorem seesFree {e : Exp} (noProgram : e.NoProgram) : e.SeesFree := by
  induction e using partsInduct with
  | step e ih =>
    have each : ∀ part ∈ e.parts, part.SeesFree := fun part hpart =>
      ih part hpart (noProgram.part hpart)
    intro env₁ env₂ h
    cases e with
    | lambda params result body => exact alike_lambda each h
    | var x =>
      refine ⟨?_, fun _ => rfl⟩
      rw [Exp.typeOf, Exp.typeOf, h x List.mem_cons_self]
    | conditional test consequent alternative =>
      obtain ⟨htest, each⟩ := List.forall_mem_cons.mp each
      obtain ⟨hconsequent, each⟩ := List.forall_mem_cons.mp each
      have halternative := each alternative (List.mem_singleton.mpr rfl) env₁ env₂
        (h.mono fun x => List.mem_append_right _)
      have htest := htest env₁ env₂
        (h.mono fun x hx => List.mem_append_left _ (List.mem_append_left _ hx))
      have hconsequent := hconsequent env₁ env₂
        (h.mono fun x hx => List.mem_append_left _ (List.mem_append_right _ hx))
      refine ⟨?_, fun _ => rfl⟩
      rw [Exp.typeOf, Exp.typeOf, htest.typeOf, hconsequent.typeOf, halternative.typeOf]
    | app operator operands => exact ⟨typeOf_app_eq each h, fun _ => rfl⟩
    | letIn bindings body =>
      obtain ⟨hvalues, hbody⟩ := List.forall_mem_append.mp each
      exact ⟨typeOf_letIn_eq hvalues hbody h, fun _ => rfl⟩
    | letrec bindings body =>
      obtain ⟨hvalues, hbody⟩ := List.forall_mem_append.mp each
      exact ⟨typeOf_letrec_eq hvalues hbody h, fun _ => rfl⟩
    | define d value =>
      refine ⟨?_, fun _ => rfl⟩
      rw [Exp.typeOf, Exp.typeOf, (each value (List.mem_singleton.mpr rfl) env₁ env₂ h).typeOf]
    | program forms => exact absurd rfl (noProgram.ne forms)
    | _ => exact ⟨rfl, fun _ => rfl⟩

end Exp

/-- Two environments with the same types for the free variables of an expression give the same type
or the same error, and leave the same supply. -/
theorem typeOf_eq_of_free {e : Exp} (noProgram : e.NoProgram) {env₁ env₂ : Env}
    (agree : ∀ x ∈ e.free, env₁.lookup x = env₂.lookup x) (s : Supply) :
    e.typeOf env₁ s = e.typeOf env₂ s :=
  congrFun (Exp.seesFree noProgram env₁ env₂ agree).typeOf s

/-- `(let (((x : number) y)) (lambda ((z : boolean)) : number x))` -/
def hidingExp : Exp :=
  .letIn [.binding (.decl "x" .number) (.var "y")]
    [.lambda [.decl "z" .boolean] .number [.var "x"]]

/-- the second environment binds `y` twice in one frame, and other variables behind it -/
theorem typeOf_hidingExp_eq :
    hidingExp.free = ["y"] ∧
      Env.lookup ⟨[[("y", .number)]]⟩ "y" =
        Env.lookup ⟨[[("x", .void), ("y", .number), ("y", .string)], [("z", .var "T")]]⟩ "y" ∧
      hidingExp.typeOf ⟨[[("y", .number)]]⟩ (.start []) =
        .ok (.proc [.boolean] .number) (.start []) ∧
      hidingExp.typeOf ⟨[[("x", .void), ("y", .number), ("y", .string)], [("z", .var "T")]]⟩
        (.start []) = .ok (.proc [.boolean] .number) (.start []) := by
  have noProgram : hidingExp.NoProgram := by
    refine Exp.noProgram_of_parts nofun ?_
    refine List.forall_mem_cons.mpr ⟨Exp.noProgram_leaf nofun rfl, List.forall_mem_singleton.mpr ?_⟩
    refine Exp.noProgram_of_parts nofun ?_
    exact List.forall_mem_singleton.mpr (Exp.noProgram_leaf nofun rfl)
  have agree : ∀ x ∈ hidingExp.free, Env.lookup ⟨[[("y", .number)]]⟩ x =
      Env.lookup ⟨[[("x", .void), ("y", .number), ("y", .string)], [("z", .var "T")]]⟩ x := by
    decide
  have typed : hidingExp.typeOf ⟨[[("y", .number)]]⟩ (.start []) =
      .ok (.proc [.boolean] .number) (.start []) := rfl
  exact ⟨by decide, by decide, typed, (typeOf_eq_of_free noProgram agree _).symm.trans typed⟩

end AnnotatedScheme
