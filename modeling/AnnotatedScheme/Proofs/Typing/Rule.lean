import AnnotatedScheme.Proofs.Typing.Checks

/-!
# The rules of typing

`Exp.typeOf_eq_ok_iff` says what it takes to type an expression: the checks in it succeed one after
the other, and their types obey the rule of the form. `Exp.Rule env e ts t` is that rule: from the
types `ts` of the parts of `e` it gives the type `t`. A reference to a primitive has no parts and
draws names from the supply instead (`Exp.typeOf_primitive_eq_ok_iff`).
-/

namespace AnnotatedScheme.Exp

open Check

/-! ## sequences -/

theorem typeOfBody_singleton_eq_ok_iff {env : Env} {e : Exp} {t : Ty} {s s' : Supply} :
    typeOfBody env [e] s = .ok t s' ↔ e.typeOf env s = .ok t s' := by
  rw [typeOfBody, bind_eq_ok_iff]
  simp only [List.isEmpty_nil, if_true, pure_eq_ok_iff]
  constructor
  · rintro ⟨_, _, head, rfl, rfl⟩
    exact head
  · intro head
    exact ⟨t, s', head, rfl, rfl⟩

theorem typeOfBody_cons_eq_ok_iff {env : Env} {e : Exp} {rest : List Exp} (h : rest ≠ []) {t : Ty}
    {s s' : Supply} :
    typeOfBody env (e :: rest) s = .ok t s' ↔
      ∃ u s₁, e.typeOf env s = .ok u s₁ ∧ typeOfBody env rest s₁ = .ok t s' := by
  rw [typeOfBody, bind_eq_ok_iff, List.isEmpty_eq_false_iff.mpr h]
  rfl

theorem typeOfBody_eq_ok_iff {env : Env} {body : List Exp} {t : Ty} {s s' : Supply} :
    typeOfBody env body s = .ok t s' ↔
      ∃ ts, Runs (inEnv env body) s ts s' ∧ ts.getLast? = some t := by
  induction body generalizing s with
  | nil =>
    simp [typeOfBody, throw_ne_ok, inEnv, Runs.nil_iff]
  | cons e rest ih =>
    cases rest with
    | nil =>
      rw [typeOfBody_singleton_eq_ok_iff]
      refine ⟨fun head => ⟨[_], .cons head (.nil _), rfl⟩, fun h => ?_⟩
      obtain ⟨ts, hruns, hlast⟩ := h
      obtain ⟨u, _, s₁, rfl, head, tail⟩ := Runs.cons_left_iff.mp hruns
      obtain ⟨rfl, rfl⟩ := Runs.nil_iff.mp tail
      obtain rfl := Option.some.inj hlast
      exact head
    | cons next rest =>
      rw [typeOfBody_cons_eq_ok_iff (List.cons_ne_nil next rest)]
      simp only [ih]
      refine ⟨fun h => ?_, fun h => ?_⟩
      · obtain ⟨u, s₁, head, ts, tail, hlast⟩ := h
        exact ⟨u :: ts, .cons head tail, by rw [List.getLast?_cons, hlast]; rfl⟩
      · obtain ⟨ts, hruns, hlast⟩ := h
        obtain ⟨u, us, s₁, rfl, head, tail⟩ := Runs.cons_left_iff.mp hruns
        obtain ⟨v, vs, s₂, rfl, _, _⟩ := Runs.cons_left_iff.mp tail
        exact ⟨u, s₁, head, v :: vs, tail, by rwa [List.getLast?_cons_cons] at hlast⟩

theorem typeOfForms_singleton_eq_ok_iff {env : Env} {e : Exp} {t : Ty} {s s' : Supply} :
    typeOfForms env [e] s = .ok t s' ↔
      e.typeOf env s = .ok t s' ∧ ∃ env', scopeBehind env e = .ok env' := by
  rw [typeOfForms]
  simp only [bind_eq_ok_iff, ofExcept_eq_ok_iff, List.isEmpty_nil, if_true, pure_eq_ok_iff]
  constructor
  · rintro ⟨_, _, head, env', _, ⟨hscope, rfl⟩, rfl, rfl⟩
    exact ⟨head, env', hscope⟩
  · rintro ⟨head, env', hscope⟩
    exact ⟨t, s', head, env', s', ⟨hscope, rfl⟩, rfl, rfl⟩

theorem typeOfForms_cons_eq_ok_iff {env : Env} {e : Exp} {rest : List Exp} (h : rest ≠ []) {t : Ty}
    {s s' : Supply} :
    typeOfForms env (e :: rest) s = .ok t s' ↔
      ∃ u s₁ env', e.typeOf env s = .ok u s₁ ∧ scopeBehind env e = .ok env' ∧
        typeOfForms env' rest s₁ = .ok t s' := by
  rw [typeOfForms, List.isEmpty_eq_false_iff.mpr h]
  simp only [bind_eq_ok_iff, ofExcept_eq_ok_iff, Bool.false_eq_true, if_false]
  constructor
  · rintro ⟨u, s₁, head, env', _, ⟨hscope, rfl⟩, tail⟩
    exact ⟨u, s₁, env', head, hscope, tail⟩
  · rintro ⟨u, s₁, env', head, hscope, tail⟩
    exact ⟨u, s₁, head, env', s₁, ⟨hscope, rfl⟩, tail⟩

theorem typeOfForms_eq_ok_iff {env : Env} {forms : List Exp} {t : Ty} {s s' : Supply} :
    typeOfForms env forms s = .ok t s' ↔
      ∃ ts, Runs (scopes env forms) s ts s' ∧
        (∀ c ∈ scopes env forms, ∃ env', scopeBehind c.1 c.2 = .ok env') ∧
        ts.getLast? = some t := by
  induction forms generalizing env s s' with
  | nil => simp [typeOfForms, throw_ne_ok, scopes, Runs.nil_iff]
  | cons e rest ih =>
    rw [scopes, List.forall_mem_cons]
    cases rest with
    | nil =>
      rw [typeOfForms_singleton_eq_ok_iff]
      refine ⟨fun h => ⟨[_], .cons h.1 (.nil _), ⟨h.2, List.forall_mem_nil _⟩, rfl⟩, fun h => ?_⟩
      obtain ⟨ts, hruns, ⟨hscope, -⟩, hlast⟩ := h
      obtain ⟨u, _, s₁, rfl, head, tail⟩ := Runs.cons_left_iff.mp hruns
      obtain ⟨rfl, rfl⟩ := Runs.nil_iff.mp tail
      obtain rfl := Option.some.inj hlast
      exact ⟨head, hscope⟩
    | cons next rest =>
      rw [typeOfForms_cons_eq_ok_iff (List.cons_ne_nil next rest)]
      refine ⟨fun h => ?_, fun h => ?_⟩
      · obtain ⟨u, s₁, env', head, hscope, hrest⟩ := h
        obtain ⟨ts, tail, hall, hlast⟩ := ih.mp hrest
        rw [behind_of_ok hscope]
        exact ⟨u :: ts, .cons head tail, ⟨⟨env', hscope⟩, hall⟩,
          by rw [List.getLast?_cons, hlast]; rfl⟩
      · obtain ⟨ts, hruns, ⟨⟨env', hscope⟩, hall⟩, hlast⟩ := h
        rw [behind_of_ok hscope] at hruns hall
        obtain ⟨u, us, s₁, rfl, head, tail⟩ := Runs.cons_left_iff.mp hruns
        obtain ⟨v, vs, s₂, rfl, _, _⟩ := Runs.cons_left_iff.mp tail
        rw [List.getLast?_cons_cons] at hlast
        exact ⟨u, s₁, env', head, hscope, ih.mpr ⟨v :: vs, tail, hall, hlast⟩⟩

theorem checkOperands_eq_ok_iff {env : Env} {site : Exp} {operands : List Exp} {params : List Ty}
    (hlen : operands.length = params.length) {u : Unit} {s s' : Supply} :
    checkOperands env site operands params s = .ok u s' ↔
      Runs (inEnv env operands) s params s' := by
  induction operands generalizing params s with
  | nil =>
    obtain rfl := List.eq_nil_of_length_eq_zero hlen.symm
    simp [checkOperands, pure_eq_ok_iff, inEnv, Runs.nil_iff]
  | cons e rest ih =>
    cases params with
    | nil => simp at hlen
    | cons t params =>
      rw [checkOperands, inEnv, List.map_cons, Runs.cons_iff]
      simp only [bind_eq_ok_iff, Check.requireEqual_eq_ok_iff, ih (Nat.succ.inj hlen)]
      refine ⟨fun h => ?_, fun h => ?_⟩
      · obtain ⟨_, s₁, head, _, _, ⟨rfl, rfl⟩, tail⟩ := h
        exact ⟨s₁, head, tail⟩
      · obtain ⟨s₁, head, tail⟩ := h
        exact ⟨t, s₁, head, (), s₁, ⟨rfl, rfl⟩, tail⟩

/-! ## bindings -/

theorem frameOfLet_cons {b d value : Exp} (h : b.bound? = some (d, value)) (env : Env) (site : Exp)
    (rest : List Exp) :
    frameOfLet env site (b :: rest) = (do
      let entry ← Check.declare d (← typeOf env value) site
      return entry :: (← frameOfLet env site rest)) := by
  cases b with
  | binding | define =>
    obtain ⟨rfl, rfl⟩ := Prod.mk.inj (Option.some.inj h)
    rw [frameOfLet]
  | _ => simp [bound?] at h

theorem frameOfLet_cons_ne_ok {b : Exp} (h : b.bound? = none) {env : Env} {site : Exp}
    {rest : List Exp} {frame : Frame} {s s' : Supply} :
    ¬ frameOfLet env site (b :: rest) s = .ok frame s' := by
  cases b with
  | binding | define => simp [bound?] at h
  | quote value => cases value <;> exact throw_ne_ok
  | _ => exact throw_ne_ok

theorem values_cons {b d value : Exp} (h : b.bound? = some (d, value)) (rest : List Exp) :
    values (b :: rest) = value :: values rest := by
  simp [values, h]

theorem boundFrame?_cons_eq_some_iff {b : Exp} {rest : List Exp} {frame : Frame} :
    boundFrame? (b :: rest) = some frame ↔
      ∃ d value entry tail, b.bound? = some (d, value) ∧ d.declared? = some entry ∧
        boundFrame? rest = some tail ∧ frame = entry :: tail := by
  simp only [boundFrame?, List.mapM_cons, Option.bind_eq_bind, Option.bind_eq_some_iff,
    Option.pure_def, Option.some.injEq]
  refine ⟨fun h => ?_, fun h => ?_⟩
  · obtain ⟨entry, ⟨p, hb, hd⟩, tail, htail, rfl⟩ := h
    exact ⟨p.1, p.2, entry, tail, hb, hd, htail, rfl⟩
  · obtain ⟨d, value, entry, tail, hb, hd, htail, rfl⟩ := h
    exact ⟨entry, ⟨(d, value), hb, hd⟩, tail, htail, rfl⟩

theorem length_values {bindings : List Exp} {frame : Frame}
    (h : boundFrame? bindings = some frame) : (values bindings).length = frame.length := by
  induction bindings generalizing frame with
  | nil =>
    obtain rfl := Option.some.inj h
    rfl
  | cons b rest ih =>
    obtain ⟨d, value, entry, tail, hb, -, htail, rfl⟩ := boundFrame?_cons_eq_some_iff.mp h
    rw [values_cons hb, List.length_cons, List.length_cons, ih htail]

theorem frameOfLet_eq_ok_iff {env : Env} {site : Exp} {bindings : List Exp} {frame : Frame}
    {s s' : Supply} :
    frameOfLet env site bindings s = .ok frame s' ↔
      boundFrame? bindings = some frame ∧
        Runs (inEnv env (values bindings)) s (frame.map Prod.snd) s' := by
  induction bindings generalizing frame s s' with
  | nil =>
    simp only [frameOfLet, pure_eq_ok_iff, boundFrame?, List.mapM_nil, values,
      List.filterMap_nil, inEnv, List.map_nil, Runs.nil_iff, List.map_eq_nil_iff]
    refine ⟨fun h => ?_, fun h => ?_⟩
    · obtain ⟨rfl, rfl⟩ := h
      exact ⟨rfl, rfl, rfl⟩
    · obtain ⟨_, rfl, rfl⟩ := h
      exact ⟨rfl, rfl⟩
  | cons b rest ih =>
    rw [boundFrame?_cons_eq_some_iff]
    cases hb : b.bound? with
    | none => simp [frameOfLet_cons_ne_ok hb]
    | some p =>
      obtain ⟨d, value⟩ := p
      rw [frameOfLet_cons hb, values_cons hb]
      simp only [bind_eq_ok_iff, pure_eq_ok_iff, declare_eq_ok_iff, ih]
      refine ⟨fun h => ?_, fun h => ?_⟩
      · obtain ⟨_, s₁, head, entry, _, ⟨hd, rfl, rfl⟩, tail, _, ⟨htail, runs⟩, rfl, rfl⟩ := h
        exact ⟨⟨d, value, entry, tail, rfl, hd, htail, rfl⟩, .cons head runs⟩
      · obtain ⟨⟨_, _, entry, tail, ⟨rfl, rfl⟩, hd, htail, rfl⟩, runs⟩ := h
        obtain ⟨s₁, head, runs⟩ := Runs.cons_iff.mp runs
        exact ⟨_, s₁, head, entry, s₁, ⟨hd, rfl, rfl⟩, tail, _, ⟨htail, runs⟩, rfl, rfl⟩

/-! ## lambdas -/

theorem typeOf_lambda_eq_ok_iff {env : Env} {params body : List Exp} {result t : Ty}
    {s s' : Supply} :
    (Exp.lambda params result body).typeOf env s = .ok t s' ↔
      ∃ frame, frame? params = some frame ∧ t = .proc (frame.map Prod.snd) result ∧
        typeOfBody (env.extend frame) body s = .ok result s' := by
  rw [typeOf]
  cases frame? params with
  | none => simp [throw_ne_ok]
  | some frame =>
    simp only [bind_eq_ok_iff, Check.requireEqual_eq_ok_iff, pure_eq_ok_iff]
    refine ⟨fun h => ?_, fun h => ?_⟩
    · obtain ⟨_, s₁, hbody, _, _, ⟨rfl, rfl⟩, rfl, rfl⟩ := h
      exact ⟨frame, rfl, rfl, hbody⟩
    · obtain ⟨_, ⟨rfl⟩, rfl, hbody⟩ := h
      exact ⟨result, s', hbody, (), s', ⟨rfl, rfl⟩, rfl, rfl⟩

theorem checkLambda_eq_ok_iff {env : Env} {site value : Exp} {t : Ty}
    (h : value.lambdaType? = some t) {u : Unit} {s s' : Supply} :
    checkLambda env site value s = .ok u s' ↔ value.typeOf env s = .ok t s' := by
  cases value with
  | lambda params result body =>
    simp only [lambdaType?, Option.bind_eq_bind, Option.bind_eq_some_iff, Option.pure_def,
      Option.some.injEq] at h
    obtain ⟨frame, hframe, rfl⟩ := h
    rw [typeOf_lambda_eq_ok_iff, checkLambda, hframe]
    simp only [bind_eq_ok_iff, Check.requireEqual_eq_ok_iff]
    refine ⟨fun h => ?_, fun h => ?_⟩
    · obtain ⟨_, s₁, hbody, rfl, rfl⟩ := h
      exact ⟨frame, rfl, rfl, hbody⟩
    · obtain ⟨_, ⟨rfl⟩, _, hbody⟩ := h
      exact ⟨result, s', hbody, rfl, rfl⟩
  | _ => simp [lambdaType?] at h

theorem lambdaFrame?_cons_eq_some_iff {b : Exp} {rest : List Exp} {frame : Frame} :
    lambdaFrame? (b :: rest) = some frame ↔
      ∃ d value t tail, b.bound? = some (d, value) ∧ value.lambdaType? = some t ∧
        lambdaFrame? rest = some tail ∧
        frame = (d.variableName?.map fun name => (name, t)).toList ++ tail := by
  simp only [lambdaFrame?, List.mapM_cons, Option.bind_eq_bind, Option.bind_eq_some_iff,
    Option.pure_def, Option.some.injEq]
  refine ⟨fun h => ?_, fun h => ?_⟩
  · obtain ⟨_, ⟨_, ⟨⟨d, value⟩, hb, t, ht, rfl⟩, entries, hrest, rfl⟩, rfl⟩ := h
    refine ⟨d, value, t, entries.filterMap id, hb, ht, ⟨entries, hrest, rfl⟩, ?_⟩
    cases d.variableName? <;> rfl
  · obtain ⟨d, value, t, _, hb, ht, ⟨entries, hrest, rfl⟩, rfl⟩ := h
    refine ⟨_, ⟨_, ⟨(d, value), hb, t, ht, rfl⟩, entries, hrest, rfl⟩, ?_⟩
    cases d.variableName? <;> rfl

theorem checkLambdas_cons {b d value : Exp} (h : b.bound? = some (d, value)) (env : Env)
    (site : Exp) (rest : List Exp) :
    checkLambdas env site (b :: rest) = (do
      checkLambda env site value
      checkLambdas env site rest) := by
  cases b with
  | binding | define =>
    obtain ⟨rfl, rfl⟩ := Prod.mk.inj (Option.some.inj h)
    rw [checkLambdas]
  | _ => simp [bound?] at h

theorem checkLambdas_eq_ok_iff {env : Env} {site : Exp} {bindings : List Exp} {frame : Frame}
    (h : lambdaFrame? bindings = some frame) {u : Unit} {s s' : Supply} :
    checkLambdas env site bindings s = .ok u s' ↔
      ∃ types, (values bindings).map lambdaType? = types.map some ∧
        Runs (inEnv env (values bindings)) s types s' := by
  induction bindings generalizing frame s with
  | nil => simp [checkLambdas, pure_eq_ok_iff, values, inEnv, Runs.nil_iff]
  | cons b rest ih =>
    obtain ⟨d, value, t, tail, hb, ht, hrest, -⟩ := lambdaFrame?_cons_eq_some_iff.mp h
    rw [checkLambdas_cons hb, values_cons hb]
    simp only [bind_eq_ok_iff, checkLambda_eq_ok_iff ht, ih hrest, List.map_cons, ht]
    refine ⟨fun h => ?_, fun h => ?_⟩
    · obtain ⟨_, s₁, head, types, htypes, runs⟩ := h
      exact ⟨t :: types, by rw [htypes, List.map_cons], .cons head runs⟩
    · obtain ⟨types, htypes, runs⟩ := h
      obtain ⟨_, types, rfl, hhead, htail⟩ := List.map_eq_cons_iff.mp htypes.symm
      obtain rfl := Option.some.inj hhead
      obtain ⟨s₁, head, runs⟩ := Runs.cons_iff.mp runs
      exact ⟨(), s₁, head, types, htail.symm, runs⟩

/-! ## forms with parts -/

theorem typeOf_var_eq_ok_iff {env : Env} {name : String} {t : Ty} {s s' : Supply} :
    (Exp.var name).typeOf env s = .ok t s' ↔ env.lookup name = some t ∧ s = s' := by
  rw [typeOf]
  cases env.lookup name with
  | none => simp [throw_ne_ok]
  | some u => simp [pure_eq_ok_iff]

theorem typeOf_conditional_eq_ok_iff {env : Env} {test consequent alternative : Exp} {t : Ty}
    {s s' : Supply} :
    (Exp.conditional test consequent alternative).typeOf env s = .ok t s' ↔
      Runs (inEnv env [test, consequent, alternative]) s [.boolean, t, t] s' := by
  rw [typeOf]
  simp only [bind_eq_ok_iff, Check.requireEqual_eq_ok_iff, pure_eq_ok_iff, inEnv, List.map_cons,
    List.map_nil]
  refine ⟨fun h => ?_, fun h => ?_⟩
  · obtain ⟨_, s₁, htest, _, _, ⟨rfl, rfl⟩, h⟩ := h
    obtain ⟨u, s₂, hcons, _, s₃, halt, _, _, ⟨rfl, rfl⟩, rfl, rfl⟩ := h
    exact .cons htest (.cons hcons (.cons halt (.nil _)))
  · obtain ⟨s₁, htest, h⟩ := Runs.cons_iff.mp h
    obtain ⟨s₂, hcons, h⟩ := Runs.cons_iff.mp h
    obtain ⟨s₃, halt, h⟩ := Runs.cons_iff.mp h
    obtain ⟨-, rfl⟩ := Runs.nil_iff.mp h
    refine ⟨_, s₁, htest, (), s₁, ⟨rfl, rfl⟩, ?_⟩
    exact ⟨t, s₂, hcons, t, s₃, halt, (), s₃, ⟨rfl, rfl⟩, rfl, rfl⟩

theorem typeOf_letIn_eq_ok_iff {env : Env} {bindings body : List Exp} {t : Ty} {s s' : Supply} :
    (Exp.letIn bindings body).typeOf env s = .ok t s' ↔
      ∃ frame s₁, boundFrame? bindings = some frame ∧
        Runs (inEnv env (values bindings)) s (frame.map Prod.snd) s₁ ∧
        typeOfBody (env.extend frame) body s₁ = .ok t s' := by
  rw [typeOf]
  simp only [bind_eq_ok_iff, frameOfLet_eq_ok_iff, and_assoc]

theorem typeOf_letrec_eq_ok_iff {env : Env} {bindings body : List Exp} {t : Ty}
    {s s' : Supply} :
    (Exp.letrec bindings body).typeOf env s = .ok t s' ↔
      ∃ frame types s₁, lambdaFrame? bindings = some frame ∧
        (values bindings).map lambdaType? = types.map some ∧
        Runs (inEnv (env.extend frame) (values bindings)) s types s₁ ∧
        typeOfBody (env.extend frame) body s₁ = .ok t s' := by
  rw [typeOf]
  cases hframe : lambdaFrame? bindings with
  | none => simp [throw_ne_ok]
  | some frame =>
    simp only [bind_eq_ok_iff, checkLambdas_eq_ok_iff hframe]
    refine ⟨fun h => ?_, fun h => ?_⟩
    · obtain ⟨_, s₁, ⟨types, htypes, runs⟩, hbody⟩ := h
      exact ⟨frame, types, s₁, rfl, htypes, runs, hbody⟩
    · obtain ⟨frame', types, s₁, hframe', htypes, runs, hbody⟩ := h
      obtain rfl := Option.some.inj hframe'
      exact ⟨(), s₁, ⟨types, htypes, runs⟩, hbody⟩

theorem typeOf_define_eq_ok_iff {env : Env} {d value : Exp} {t : Ty} {s s' : Supply} :
    (Exp.define d value).typeOf env s = .ok t s' ↔
      ∃ name u, d.declared? = some (name, u) ∧ value.typeOf env s = .ok u s' ∧ t = .void := by
  rw [typeOf]
  simp only [bind_eq_ok_iff, discard_eq_ok_iff, declare_eq_ok_iff, pure_eq_ok_iff]
  refine ⟨fun h => ?_, fun h => ?_⟩
  · obtain ⟨_, s₁, hvalue, _, _, ⟨entry, hd, rfl, rfl⟩, rfl, rfl⟩ := h
    exact ⟨entry.1, entry.2, hd, hvalue, rfl⟩
  · obtain ⟨name, u, hd, hvalue, rfl⟩ := h
    exact ⟨u, s', hvalue, (), s', ⟨_, hd, rfl, rfl⟩, rfl, rfl⟩

/-! ## the rule of each form -/

inductive Rule (env : Env) : Exp → List Ty → Ty → Prop
  | number (value : Number) : Rule env (.number value) [] .number
  | boolean (value : Bool) : Rule env (.boolean value) [] .boolean
  | string (content : String) : Rule env (.string content) [] .string
  | var {name : String} {t : Ty} (h : env.lookup name = some t) : Rule env (.var name) [] t
  | quote {value : Value} {t : Ty} (h : value.typeQuoted = .ok t) : Rule env (.quote value) [] t
  | conditional {test consequent alternative : Exp} (t : Ty) :
      Rule env (.conditional test consequent alternative) [.boolean, t, t] t
  | lambda {params body : List Exp} {result : Ty} {frame : Frame} {ts : List Ty}
      (hparams : frame? params = some frame) (hlast : ts.getLast? = some result) :
      Rule env (.lambda params result body) ts (.proc (frame.map Prod.snd) result)
  | app {operator : Exp} {operands : List Exp} (h : PairOperator.ofExp? operator = none)
      (params : List Ty) (t : Ty) : Rule env (.app operator operands) (.proc params t :: params) t
  | cons {operator : Exp} {operands : List Exp} (h : PairOperator.ofExp? operator = some .cons)
      (first second : Ty) : Rule env (.app operator operands) [first, second] (.pair first second)
  | car {operator : Exp} {operands : List Exp} (h : PairOperator.ofExp? operator = some .car)
      (first second : Ty) : Rule env (.app operator operands) [.pair first second] first
  | cdr {operator : Exp} {operands : List Exp} (h : PairOperator.ofExp? operator = some .cdr)
      (first second : Ty) : Rule env (.app operator operands) [.pair first second] second
  | letIn {bindings body : List Exp} {frame : Frame} {ts : List Ty} {t : Ty}
      (hframe : boundFrame? bindings = some frame) (hlast : ts.getLast? = some t) :
      Rule env (.letIn bindings body) (frame.map Prod.snd ++ ts) t
  | letrec {bindings body : List Exp} {frame : Frame} {types ts : List Ty} {t : Ty}
      (hframe : lambdaFrame? bindings = some frame)
      (htypes : (values bindings).map lambdaType? = types.map some) (hlast : ts.getLast? = some t) :
      Rule env (.letrec bindings body) (types ++ ts) t
  | define {d value : Exp} {name : String} {t : Ty} (h : d.declared? = some (name, t)) :
      Rule env (.define d value) [t] .void
  | program {forms : List Exp} {ts : List Ty} {t : Ty}
      (hscopes : ∀ c ∈ scopes env forms, ∃ env', scopeBehind c.1 c.2 = .ok env')
      (hlast : ts.getLast? = some t) : Rule env (.program forms) ts t

theorem primitive_or_not (e : Exp) :
    (∃ name, e = .primitive name) ∨ ∀ name, e ≠ .primitive name := by
  cases e with
  | primitive name => exact .inl ⟨name, rfl⟩
  | _ => exact .inr nofun

theorem typeOf_primitive_eq_ok_iff {env : Env} {name : String} {t : Ty} {s s' : Supply} :
    (Exp.primitive name).typeOf env s = .ok t s' ↔
      ∃ signature, Primitive.signature? name = some signature ∧
        Supply.rename signature s = (t, s') := by
  rw [typeOf, typeOfPrimitive]
  cases Primitive.signature? name with
  | none => simp [throw_ne_ok]
  | some signature =>
    show EStateM.Result.ok (Supply.rename signature s).1 (Supply.rename signature s).2 = _ ↔ _
    simp [Prod.ext_iff]

theorem typeOfCons_eq_ok_iff {env : Env} {site : Exp} {operands : List Exp} {t : Ty}
    {s s' : Supply} :
    typeOfCons env site operands s = .ok t s' ↔
      ∃ first second, t = .pair first second ∧ Runs (inEnv env operands) s [first, second] s' := by
  match operands with
  | [a, b] =>
    rw [typeOfCons]
    simp only [bind_eq_ok_iff, pure_eq_ok_iff, inEnv, List.map_cons, List.map_nil, Runs.cons_iff,
      Runs.nil_iff, true_and]
    refine ⟨fun h => ?_, fun h => ?_⟩
    · obtain ⟨first, s₁, ha, second, s₂, hb, rfl, rfl⟩ := h
      exact ⟨first, second, rfl, s₁, ha, s₂, hb, rfl⟩
    · obtain ⟨first, second, rfl, s₁, ha, s₂, hb, rfl⟩ := h
      exact ⟨first, s₁, ha, second, s₂, hb, rfl, rfl⟩
  | [] | [_] | _ :: _ :: _ :: _ =>
    simp only [typeOfCons, throw_ne_ok, false_iff, not_exists, not_and]
    intro first second _ runs
    simpa [inEnv] using runs.length_eq

theorem typeOfAccess_eq_ok_iff {env : Env} {access : PairOperator} {site : Exp}
    {operands : List Exp} {t : Ty} {s s' : Supply} :
    typeOfAccess env access site operands s = .ok t s' ↔
      ∃ first second, t = (if access = .car then first else second) ∧
        Runs (inEnv env operands) s [.pair first second] s' := by
  match operands with
  | [a] =>
    rw [typeOfAccess]
    simp only [bind_eq_ok_iff, inEnv, List.map_cons, List.map_nil, Runs.cons_iff, Runs.nil_iff,
      true_and]
    refine ⟨fun h => ?_, fun h => ?_⟩
    · obtain ⟨u, s₁, ha, h⟩ := h
      cases u with
      | pair first second =>
        obtain ⟨rfl, rfl⟩ := pure_eq_ok_iff.mp h
        exact ⟨first, second, rfl, s₁, ha, rfl⟩
      | _ => exact absurd h throw_ne_ok
    · obtain ⟨first, second, rfl, s₁, ha, rfl⟩ := h
      exact ⟨_, s₁, ha, rfl⟩
  | [] | _ :: _ :: _ =>
    simp only [typeOfAccess, throw_ne_ok, false_iff, not_exists, not_and]
    intro first second _ runs
    simpa [inEnv] using runs.length_eq

/-- the application of an operator that is typed as any other expression -/
theorem typeOf_app_eq_ok_iff_of_none {env : Env} {operator : Exp} {operands : List Exp}
    (hop : PairOperator.ofExp? operator = none) {t : Ty} {s s' : Supply} :
    (Exp.app operator operands).typeOf env s = .ok t s' ↔
      ∃ params, Runs (inEnv env (operator :: operands)) s (.proc params t :: params) s' := by
  rw [typeOf, hop, inEnv, List.map_cons]
  simp only [bind_eq_ok_iff, Runs.cons_iff]
  refine ⟨fun h => ?_, fun h => ?_⟩
  · obtain ⟨u, s₁, hoperator, h⟩ := h
    cases u with
    | proc params result =>
      dsimp only at h
      split at h
      · obtain ⟨_, _, hthrow, _⟩ := bind_eq_ok_iff.mp h
        exact absurd hthrow throw_ne_ok
      · rename_i hlen
        have hlen : operands.length = params.length := Decidable.not_not.mp hlen
        obtain ⟨_, s₂, hoperands, h⟩ := bind_eq_ok_iff.mp h
        obtain ⟨rfl, rfl⟩ := pure_eq_ok_iff.mp h
        exact ⟨params, s₁, hoperator, (checkOperands_eq_ok_iff hlen).mp hoperands⟩
    | _ => exact absurd h throw_ne_ok
  · obtain ⟨params, s₁, hoperator, runs⟩ := h
    have hlen : operands.length = params.length := by simpa using runs.length_eq.symm
    have hoperands : checkOperands env (.app operator operands) operands params s₁ = .ok () s' :=
      (checkOperands_eq_ok_iff hlen).mpr runs
    refine ⟨.proc params t, s₁, hoperator, ?_⟩
    dsimp only
    rw [if_neg fun hne => hne hlen]
    exact bind_eq_ok_iff.mpr ⟨(), s', hoperands, pure_eq_ok_iff.mpr ⟨rfl, rfl⟩⟩

theorem typeOf_app_eq_ok_iff {env : Env} {operator : Exp} {operands : List Exp} {t : Ty}
    {s s' : Supply} :
    (Exp.app operator operands).typeOf env s = .ok t s' ↔
      ∃ ts, Runs ((Exp.app operator operands).checks env) s ts s' ∧
        Rule env (.app operator operands) ts t := by
  cases hop : PairOperator.ofExp? operator with
  | none =>
    rw [typeOf_app_eq_ok_iff_of_none hop, checks, hop]
    refine ⟨fun h => ?_, fun h => ?_⟩
    · obtain ⟨params, runs⟩ := h
      exact ⟨_, runs, .app hop params t⟩
    · obtain ⟨ts, runs, hrule⟩ := h
      cases hrule with
      | app _ params _ => exact ⟨params, runs⟩
      | cons h | car h | cdr h => rw [hop] at h; cases h
  | some access =>
    rw [typeOf, checks, hop]
    cases access with
    | cons =>
      simp only [Option.isSome_some, if_true, typeOfCons_eq_ok_iff]
      refine ⟨fun h => ?_, fun h => ?_⟩
      · obtain ⟨first, second, rfl, runs⟩ := h
        exact ⟨_, runs, .cons hop first second⟩
      · obtain ⟨ts, runs, hrule⟩ := h
        cases hrule with
        | cons _ first second => exact ⟨first, second, rfl, runs⟩
        | app h | car h | cdr h => rw [hop] at h; cases h
    | car =>
      simp only [Option.isSome_some, if_true, typeOfAccess_eq_ok_iff]
      refine ⟨fun h => ?_, fun h => ?_⟩
      · obtain ⟨first, second, rfl, runs⟩ := h
        exact ⟨_, runs, .car hop t second⟩
      · obtain ⟨ts, runs, hrule⟩ := h
        cases hrule with
        | car _ _ second => exact ⟨t, second, rfl, runs⟩
        | app h | cons h | cdr h => rw [hop] at h; cases h
    | cdr =>
      simp only [Option.isSome_some, if_true, typeOfAccess_eq_ok_iff]
      refine ⟨fun h => ?_, fun h => ?_⟩
      · obtain ⟨first, second, rfl, runs⟩ := h
        exact ⟨_, runs, .cdr hop first t⟩
      · obtain ⟨ts, runs, hrule⟩ := h
        cases hrule with
        | cdr _ first _ => exact ⟨first, t, rfl, runs⟩
        | app h | cons h | car h => rw [hop] at h; cases h

/-- A check succeeds exactly if the checks in it do, one after the other, with types that obey
the rule of the form. -/
theorem typeOf_eq_ok_iff {env : Env} {e : Exp} (h : ∀ name, e ≠ .primitive name) {t : Ty}
    {s s' : Supply} :
    e.typeOf env s = .ok t s' ↔ ∃ ts, Runs (e.checks env) s ts s' ∧ e.Rule env ts t := by
  cases e with
  | number value =>
    rw [typeOf, pure_eq_ok_iff, checks, Runs.exists_nil_iff]
    refine and_congr_left' ⟨fun h => h ▸ .number value, fun hrule => ?_⟩
    cases hrule
    rfl
  | boolean value =>
    rw [typeOf, pure_eq_ok_iff, checks, Runs.exists_nil_iff]
    refine and_congr_left' ⟨fun h => h ▸ .boolean value, fun hrule => ?_⟩
    cases hrule
    rfl
  | string content =>
    rw [typeOf, pure_eq_ok_iff, checks, Runs.exists_nil_iff]
    refine and_congr_left' ⟨fun h => h ▸ .string content, fun hrule => ?_⟩
    cases hrule
    rfl
  | primitive name => exact absurd rfl (h name)
  | var name =>
    rw [typeOf_var_eq_ok_iff, checks, Runs.exists_nil_iff]
    refine and_congr_left' ⟨.var, fun hrule => ?_⟩
    cases hrule with
    | var hlook => exact hlook
  | conditional test consequent alternative =>
    rw [typeOf_conditional_eq_ok_iff, checks]
    refine ⟨fun h => ⟨_, h, .conditional t⟩, fun h => ?_⟩
    obtain ⟨ts, runs, hrule⟩ := h
    cases hrule with
    | conditional => exact runs
  | lambda params result body =>
    rw [typeOf_lambda_eq_ok_iff, checks]
    simp only [typeOfBody_eq_ok_iff]
    refine ⟨fun h => ?_, fun h => ?_⟩
    · obtain ⟨frame, hparams, rfl, ts, runs, hlast⟩ := h
      rw [hparams]
      exact ⟨ts, runs, .lambda hparams hlast⟩
    · obtain ⟨ts, runs, hrule⟩ := h
      cases hrule with
      | lambda hparams hlast =>
        rw [hparams] at runs
        exact ⟨_, hparams, rfl, ts, runs, hlast⟩
  | app operator operands => exact typeOf_app_eq_ok_iff
  | letIn bindings body =>
    rw [typeOf_letIn_eq_ok_iff, checks]
    simp only [typeOfBody_eq_ok_iff]
    refine ⟨fun h => ?_, fun h => ?_⟩
    · obtain ⟨frame, s₁, hframe, values, ts, body, hlast⟩ := h
      rw [hframe]
      exact ⟨_, values.append body, .letIn hframe hlast⟩
    · obtain ⟨ts, runs, hrule⟩ := h
      cases hrule with
      | @letIn _ _ frame ts _ hframe hlast =>
        have hlen : (frame.map Prod.snd).length = (inEnv env (values bindings)).length := by
          simp [inEnv, length_values hframe]
        rw [hframe, Runs.append_iff_of_length hlen] at runs
        obtain ⟨s₁, values, body⟩ := runs
        exact ⟨frame, s₁, hframe, values, ts, body, hlast⟩
  | letrec bindings body =>
    rw [typeOf_letrec_eq_ok_iff, checks, inEnv, List.map_append]
    simp only [typeOfBody_eq_ok_iff]
    refine ⟨fun h => ?_, fun h => ?_⟩
    · obtain ⟨frame, types, s₁, hframe, htypes, lambdas, ts, body, hlast⟩ := h
      rw [hframe]
      exact ⟨_, lambdas.append body, .letrec hframe htypes hlast⟩
    · obtain ⟨ts, runs, hrule⟩ := h
      cases hrule with
      | @letrec _ _ frame types ts _ hframe htypes hlast =>
        have hlen : types.length = (values bindings).length := by
          simpa using (congrArg List.length htypes).symm
        rw [hframe, Runs.append_iff_of_length (by simpa using hlen)] at runs
        obtain ⟨s₁, lambdas, body⟩ := runs
        exact ⟨frame, types, s₁, hframe, htypes, lambdas, ts, body, hlast⟩
  | quote value =>
    rw [typeOf, ofExcept_eq_ok_iff, checks, Runs.exists_nil_iff]
    refine and_congr_left' ⟨.quote, fun hrule => ?_⟩
    cases hrule with
    | quote h => exact h
  | define d value =>
    rw [typeOf_define_eq_ok_iff, checks, inEnv, List.map_cons, List.map_nil]
    refine ⟨fun h => ?_, fun h => ?_⟩
    · obtain ⟨name, u, hd, hvalue, rfl⟩ := h
      exact ⟨[u], .cons hvalue (.nil s'), .define hd⟩
    · obtain ⟨ts, runs, hrule⟩ := h
      cases hrule with
      | define hd =>
        obtain ⟨s₁, hvalue, runs⟩ := Runs.cons_iff.mp runs
        obtain ⟨-, rfl⟩ := Runs.nil_iff.mp runs
        exact ⟨_, _, hd, hvalue, rfl⟩
  | program forms =>
    rw [typeOf, checks, typeOfForms_eq_ok_iff]
    refine ⟨fun h => ?_, fun h => ?_⟩
    · obtain ⟨ts, runs, hscopes, hlast⟩ := h
      exact ⟨ts, runs, .program hscopes hlast⟩
    · obtain ⟨ts, runs, hrule⟩ := h
      cases hrule with
      | program hscopes hlast => exact ⟨ts, runs, hscopes, hlast⟩
  | decl name type | binding d value | gap =>
    refine iff_of_false throw_ne_ok fun h => ?_
    obtain ⟨ts, -, hrule⟩ := h
    cases hrule

end AnnotatedScheme.Exp
