import AnnotatedScheme.Proofs.Ty.Renaming
import AnnotatedScheme.Proofs.Typing.Names

/-!
# Types in the place of type variables

Type variables in annotations are parameters: what is typed stays typed if types are put in their
place, in the expression and in the environment alike (`typeOf_substitute`).

* `Exp.substitute`        types put in the place of the variables in all annotations;
* `Env.substitute`        the same in all bindings of an environment;
* `Exp.checks_substitute` the checks inside of an instance are the instances of the checks;
* `Exp.Rule.substitute`   the rule of a form holds of all instances of the form;
* `Instance`              what is asked of the types that are put in: they are no gaps, and they
                          stand for reserved names only, and not for `literal`.

Both runs draw the same names. These are not reserved, so that they stay what they are, whatever the
types put in may mention.
-/

namespace AnnotatedScheme

open Supply

/-- types put in the place of some of the reserved names -/
structure Instance (f : String → Ty) (reserved : List String) : Prop where
  moves : ∀ name, f name ≠ .var name → name ∈ reserved ∧ name ≠ "literal"
  ne_gap : ∀ name, f name ≠ .gap

variable {f : String → Ty} {reserved : List String}

namespace Ty

theorem substitute_eq_gap_iff (h : Instance f reserved) {t : Ty} :
    t.substitute f = .gap ↔ t = .gap := by
  cases t with
  | var name => exact iff_of_false (h.ne_gap name) nofun
  | gap => exact iff_of_true rfl rfl
  | _ => exact iff_of_false nofun nofun

end Ty

/-! ## environments -/

def Frame.substitute (f : String → Ty) (frame : Frame) : Frame :=
  frame.map (Prod.map id (Ty.substitute f))

namespace Env

def substitute (f : String → Ty) (env : Env) : Env := ⟨env.frames.map (Frame.substitute f)⟩

theorem lookup_substitute (h : Instance f reserved) (env : Env) (x : String) :
    (env.substitute f).lookup x = (env.lookup x).map (Ty.substitute f) := by
  have hfind : ∀ frames : List Frame,
      (frames.map (Frame.substitute f)).findSome? (List.lookup x) =
        (frames.findSome? (List.lookup x)).map (Ty.substitute f) := by
    intro frames
    induction frames with
    | nil => rfl
    | cons frame rest ih =>
      have hframe : (frame.substitute f).lookup x = (frame.lookup x).map (Ty.substitute f) :=
        lookup_map_prodMap _ _ _
      rw [List.map_cons, List.findSome?_cons, List.findSome?_cons, hframe, ih]
      cases frame.lookup x <;> rfl
  show ((env.frames.map (Frame.substitute f)).findSome? (List.lookup x)).filter _ = _
  rw [hfind, lookup]
  cases env.frames.findSome? (List.lookup x) with
  | none => rfl
  | some t =>
    by_cases ht : t = .gap
    · subst ht
      rfl
    · have hsubstitute : t.substitute f ≠ .gap := mt (Ty.substitute_eq_gap_iff h).mp ht
      simp [Option.filter, ht, hsubstitute]

end Env

namespace Exp

/-! ## annotations -/

mutual
def substitute (f : String → Ty) : Exp → Exp
  | .conditional test consequent alternative =>
    .conditional (test.substitute f) (consequent.substitute f) (alternative.substitute f)
  | .lambda params result body =>
    .lambda (substituteAll f params) (result.substitute f) (substituteAll f body)
  | .app operator operands => .app (operator.substitute f) (substituteAll f operands)
  | .letIn bindings body => .letIn (substituteAll f bindings) (substituteAll f body)
  | .letrec bindings body => .letrec (substituteAll f bindings) (substituteAll f body)
  | .define d value => .define (d.substitute f) (value.substitute f)
  | .program forms => .program (substituteAll f forms)
  | .decl name type => .decl name (type.substitute f)
  | .binding d value => .binding (d.substitute f) (value.substitute f)
  | e => e

def substituteAll (f : String → Ty) : List Exp → List Exp
  | [] => []
  | e :: rest => e.substitute f :: substituteAll f rest
end

theorem substituteAll_eq_map (es : List Exp) : substituteAll f es = es.map (substitute f) := by
  induction es with
  | nil => rfl
  | cons e es ih => rw [substituteAll, ih, List.map_cons]

theorem declared?_substitute (d : Exp) :
    (d.substitute f).declared? = d.declared?.map (Prod.map id (Ty.substitute f)) := by
  cases d <;> rfl

theorem variableName?_substitute (d : Exp) : (d.substitute f).variableName? = d.variableName? := by
  cases d <;> rfl

theorem bound?_substitute (b : Exp) :
    (b.substitute f).bound? = b.bound?.map (Prod.map (substitute f) (substitute f)) := by
  cases b <;> rfl

theorem ofExp?_substitute (e : Exp) :
    PairOperator.ofExp? (e.substitute f) = PairOperator.ofExp? e := by
  cases e <;> rfl

theorem frame?_substitute (decls : List Exp) :
    frame? (decls.map (substitute f)) = (frame? decls).map (Frame.substitute f) :=
  mapM_map_of_comm declared?_substitute decls

theorem values_substitute (bindings : List Exp) :
    values (bindings.map (substitute f)) = (values bindings).map (substitute f) := by
  have hvalue : ∀ b : Exp, (b.substitute f).bound?.map Prod.snd =
      (b.bound?.map Prod.snd).map (substitute f) := by
    intro b
    rw [bound?_substitute]
    cases b.bound? <;> rfl
  rw [values, values, List.filterMap_map, List.map_filterMap]
  exact congrArg (List.filterMap · bindings) (funext hvalue)

theorem boundFrame?_substitute (bindings : List Exp) :
    boundFrame? (bindings.map (substitute f)) =
      (boundFrame? bindings).map (Frame.substitute f) := by
  refine mapM_map_of_comm (fun b => ?_) bindings
  rw [bound?_substitute]
  cases b.bound? with
  | none => rfl
  | some p => exact declared?_substitute p.1

theorem map_snd_substitute (frame : Frame) :
    (frame.substitute f).map Prod.snd = (frame.map Prod.snd).map (Ty.substitute f) := by
  rw [Frame.substitute, List.map_map, List.map_map]
  rfl

theorem lambdaType?_substitute (value : Exp) :
    (value.substitute f).lambdaType? = value.lambdaType?.map (Ty.substitute f) := by
  cases value with
  | lambda params result body =>
    rw [substitute, substituteAll_eq_map, lambdaType?, lambdaType?, frame?_substitute]
    cases frame? params with
    | none => rfl
    | some frame =>
      show some (Ty.proc _ _) = some (Ty.substitute f (.proc _ _))
      rw [map_snd_substitute, Ty.substitute_proc]
  | _ => rfl

/-- what a binding of a lambda puts into the frame of a letrec -/
def lambdaBinding? (b : Exp) : Option (Option (String × Ty)) :=
  b.bound?.bind fun p => p.2.lambdaType?.map fun t => p.1.variableName?.map fun name => (name, t)

theorem lambdaFrame?_eq (bindings : List Exp) :
    lambdaFrame? bindings = (bindings.mapM lambdaBinding?).map (List.filterMap id) := by
  rw [lambdaFrame?, Option.map_eq_bind]
  refine congrArg (Option.bind · _) (congrArg (fun g => List.mapM g bindings) (funext fun b => ?_))
  show b.bound?.bind _ = b.bound?.bind _
  exact congrArg _ (funext fun p => Option.map_eq_bind.symm)

theorem lambdaBinding?_substitute (b : Exp) :
    (b.substitute f).lambdaBinding? =
      b.lambdaBinding?.map (Option.map (Prod.map id (Ty.substitute f))) := by
  rw [lambdaBinding?, lambdaBinding?, bound?_substitute]
  cases b.bound? with
  | none => rfl
  | some p =>
    show (p.2.substitute f).lambdaType?.map (fun t =>
      (p.1.substitute f).variableName?.map fun name => (name, t)) = (p.2.lambdaType?.map _).map _
    rw [lambdaType?_substitute, variableName?_substitute]
    cases p.2.lambdaType? with
    | none => rfl
    | some t => cases p.1.variableName? <;> rfl

theorem lambdaFrame?_substitute (bindings : List Exp) :
    lambdaFrame? (bindings.map (substitute f)) =
      (lambdaFrame? bindings).map (Frame.substitute f) := by
  rw [lambdaFrame?_eq, lambdaFrame?_eq, mapM_map_of_comm lambdaBinding?_substitute]
  cases bindings.mapM lambdaBinding? with
  | none => rfl
  | some entries =>
    show some _ = some ((entries.filterMap id).map _)
    rw [List.filterMap_map, List.map_filterMap]
    rfl

/-! ## checks -/

theorem inEnv_substitute (env : Env) (es : List Exp) :
    inEnv (env.substitute f) (es.map (substitute f)) =
      (inEnv env es).map (Prod.map (Env.substitute f) (substitute f)) := by
  rw [inEnv, inEnv, List.map_map, List.map_map]
  rfl

/-- a frame that is put on top, if there is one -/
theorem extend_getD_substitute (env : Env) (frame : Option Frame) :
    (env.substitute f).extend ((frame.map (Frame.substitute f)).getD []) =
      (env.extend (frame.getD [])).substitute f := by
  cases frame <;> rfl

theorem checks_substitute (env : Env) {e : Exp} (h : ∀ forms, e ≠ .program forms) :
    (e.substitute f).checks (env.substitute f) =
      (e.checks env).map (Prod.map (Env.substitute f) (substitute f)) := by
  cases e with
  | conditional test consequent alternative => exact inEnv_substitute env [_, _, _]
  | lambda params result body =>
    rw [substitute, checks, checks, substituteAll_eq_map, substituteAll_eq_map, frame?_substitute,
      extend_getD_substitute, inEnv_substitute]
  | app operator operands =>
    rw [substitute, checks, checks, substituteAll_eq_map, ofExp?_substitute, ← inEnv_substitute]
    split <;> rfl
  | letIn bindings body =>
    rw [substitute, checks, checks, substituteAll_eq_map, substituteAll_eq_map, values_substitute,
      boundFrame?_substitute, extend_getD_substitute, inEnv_substitute, inEnv_substitute,
      List.map_append]
  | letrec bindings body =>
    rw [substitute, checks, checks, substituteAll_eq_map, substituteAll_eq_map, values_substitute,
      lambdaFrame?_substitute, extend_getD_substitute, ← List.map_append, inEnv_substitute]
  | define d value => exact inEnv_substitute env [_]
  | program forms => exact absurd rfl (h forms)
  | _ => rfl

/-! ## rules -/

theorem getLast?_map_substitute {ts : List Ty} {t : Ty} (h : ts.getLast? = some t) :
    (ts.map (Ty.substitute f)).getLast? = some (t.substitute f) := by
  rw [List.getLast?_map, h]
  rfl

theorem Rule.substitute (h : Instance f reserved) {env : Env} {e : Exp} {ts : List Ty} {t : Ty}
    (hrule : Rule env e ts t) (hprogram : ∀ forms, e ≠ .program forms) :
    Rule (env.substitute f) (e.substitute f) (ts.map (Ty.substitute f)) (t.substitute f) := by
  cases hrule with
  | number value => exact .number value
  | boolean value => exact .boolean value
  | string content => exact .string content
  | @var x t hlookup =>
    refine .var ?_
    rw [Env.lookup_substitute h, hlookup]
    rfl
  | quote hvalue =>
    have hsame : t.substitute f = t := by
      refine Ty.substitute_eq_self fun name hname => ?_
      by_contra hmoves
      exact (h.moves name hmoves).2 (names_of_typeQuoted hvalue hname)
    rw [hsame]
    exact .quote hvalue
  | conditional t => exact .conditional _
  | @lambda params body result frame ts hparams hlast =>
    have hframe : frame? (params.map (Exp.substitute f)) = some (frame.substitute f) := by
      rw [frame?_substitute, hparams]
      rfl
    rw [Exp.substitute, Ty.substitute_proc, ← map_snd_substitute, substituteAll_eq_map]
    exact .lambda hframe (getLast?_map_substitute hlast)
  | app hop params t =>
    rw [Exp.substitute, List.map_cons, Ty.substitute_proc]
    exact .app ((ofExp?_substitute _).trans hop) _ _
  | cons hop first second => exact .cons ((ofExp?_substitute _).trans hop) _ _
  | car hop first second => exact .car ((ofExp?_substitute _).trans hop) _ _
  | cdr hop first second => exact .cdr ((ofExp?_substitute _).trans hop) _ _
  | @letIn bindings body frame ts t hframe hlast =>
    have hframe : boundFrame? (bindings.map (Exp.substitute f)) = some (frame.substitute f) := by
      rw [boundFrame?_substitute, hframe]
      rfl
    rw [Exp.substitute, substituteAll_eq_map, List.map_append, ← map_snd_substitute]
    exact .letIn hframe (getLast?_map_substitute hlast)
  | @letrec bindings body frame types ts t hframe htypes hlast =>
    have hframe : lambdaFrame? (bindings.map (Exp.substitute f)) = some (frame.substitute f) := by
      rw [lambdaFrame?_substitute, hframe]
      rfl
    have htypes : (values (bindings.map (Exp.substitute f))).map lambdaType? =
        (types.map (Ty.substitute f)).map some := by
      have hcomm : lambdaType? ∘ Exp.substitute f = Option.map (Ty.substitute f) ∘ lambdaType? :=
        funext lambdaType?_substitute
      rw [values_substitute, List.map_map, hcomm, ← List.map_map, htypes, List.map_map,
        List.map_map]
      rfl
    rw [Exp.substitute, substituteAll_eq_map, List.map_append]
    exact .letrec hframe htypes (getLast?_map_substitute hlast)
  | @define d value x t hd =>
    have hd : (d.substitute f).declared? = some (x, t.substitute f) := by
      rw [declared?_substitute, hd]
      rfl
    exact .define hd
  | program => exact absurd rfl (hprogram _)

end Exp

/-! ## runs -/

theorem Exp.drawn_of_typeOf_primitive {env : Env} {name x : String} {s s' : Supply} {t : Ty}
    (h : (Exp.primitive name).typeOf env s = .ok t s') (hx : x ∈ t.names) : Drawn s s' x := by
  obtain ⟨signature, -, hrename⟩ := typeOf_primitive_eq_ok_iff.mp h
  have hdrawn : x ∈ (rename signature s).1.names → Drawn s (rename signature s).2 x :=
    drawn_of_mem_names_rename
  rw [hrename] at hdrawn
  exact hdrawn hx

/-- The step: an instance of a run is a run if each instance of a check is one. -/
theorem Runs.substitute {cs : List (Env × Exp)} {ts : List Ty} {s s' : Supply}
    (hall : ∀ c ∈ cs, ∀ s₁ t s₂, s₁.reserved = s.reserved → c.2.typeOf c.1 s₁ = .ok t s₂ →
      (c.2.substitute f).typeOf (c.1.substitute f) s₁ = .ok (t.substitute f) s₂)
    (runs : Runs cs s ts s') :
    Runs (cs.map (Prod.map (Env.substitute f) (Exp.substitute f))) s
      (ts.map (Ty.substitute f)) s' := by
  have hinstances : List.Forall₂ (fun c d => d = Prod.map (Env.substitute f) (Exp.substitute f) c)
      cs (cs.map (Prod.map (Env.substitute f) (Exp.substitute f))) :=
    List.forall₂_map_right_iff.mpr (List.forall₂_same.mpr fun _ _ => rfl)
  refine runs.simulated (Ty.substitute f) id hinstances ?_
  rintro c hc _ rfl s₁ t s₂ hs hcheck
  exact hall c hc s₁ t s₂ hs hcheck

/-- An expression without a program in it that has a type keeps it under types put in the place of
type variables, in its annotations, in the environment and in the type; the same names are drawn. -/
theorem typeOf_substitute {e : Exp} {env : Env} {s s' : Supply} {t : Ty}
    (h : Instance f s.reserved) (noProgram : e.NoProgram) (typed : e.typeOf env s = .ok t s') :
    (e.substitute f).typeOf (env.substitute f) s = .ok (t.substitute f) s' := by
  induction e using Exp.partsInduct generalizing env s t s' with
  | step e ih =>
    rcases Exp.primitive_or_not e with ⟨name, rfl⟩ | hprim
    -- a drawn name is not reserved, so that it stays
    · have hsame : t.substitute f = t := by
        refine Ty.substitute_eq_self fun n hn => ?_
        by_contra hmoves
        exact (Exp.drawn_of_typeOf_primitive typed hn).1 (h.moves n hmoves).1
      rw [hsame]
      exact typed
    · obtain ⟨ts, runs, hrule⟩ := (Exp.typeOf_eq_ok_iff hprim).mp typed
      have hprim' : ∀ name, e.substitute f ≠ .primitive name := by
        intro name he
        cases e with
        | primitive name => exact hprim name rfl
        | _ => cases he
      refine (Exp.typeOf_eq_ok_iff hprim').mpr ⟨_, ?_, hrule.substitute h noProgram.ne⟩
      rw [Exp.checks_substitute env noProgram.ne]
      refine runs.substitute fun c hc s₁ u s₂ hs hcheck => ?_
      have hpart := Exp.mem_parts_of_mem_checks hc
      exact ih c.2 hpart (hs ▸ h) (noProgram.part hpart) hcheck

/-- `(let (((y : T) x)) (cons number? (lambda ((z : T)) : T y)))` -/
def predicateAndConstant : Exp :=
  .letIn [.binding (.decl "y" (.var "T")) (.var "x")]
    [.app (.primitive "cons")
      [.primitive "number?", .lambda [.decl "z" (.var "T")] (.var "T") [.var "y"]]]

/-- a type for `T` that mentions the name that is drawn for `number?` -/
def pairForT (name : String) : Ty := if name = "T" then .pair (.var "T_1") .number else .var name

theorem predicateAndConstant_instance :
    Instance pairForT ["T"] ∧
      predicateAndConstant.typeOf ⟨[[("x", .var "T")]]⟩ (.start ["T"]) =
        .ok (.pair (.proc [.var "T_1"] .boolean) (.proc [.var "T"] (.var "T"))) ⟨["T"], 2⟩ ∧
      (predicateAndConstant.substitute pairForT).typeOf ⟨[[("x", .pair (.var "T_1") .number)]]⟩
          (.start ["T"]) =
        .ok (.pair (.proc [.var "T_1"] .boolean)
          (.proc [.pair (.var "T_1") .number] (.pair (.var "T_1") .number))) ⟨["T"], 2⟩ := by
  have h : Instance pairForT ["T"] := by
    refine ⟨fun name hmoves => ?_, fun name => ?_⟩
    · by_cases hname : name = "T"
      · subst hname
        decide
      · exact absurd (if_neg hname) hmoves
    · unfold pairForT
      split <;> exact nofun
  have noProgram : predicateAndConstant.NoProgram := by
    have hleaf : ∀ x, (Exp.var x).NoProgram := fun _ => Exp.noProgram_leaf nofun rfl
    have hlambda : (Exp.lambda [.decl "z" (.var "T")] (.var "T") [.var "y"]).NoProgram :=
      Exp.noProgram_of_parts nofun (List.forall_mem_singleton.mpr (hleaf "y"))
    refine Exp.noProgram_of_parts nofun (List.forall_mem_cons.mpr ⟨hleaf "x", ?_⟩)
    refine List.forall_mem_singleton.mpr (Exp.noProgram_of_parts nofun ?_)
    refine List.forall_mem_cons.mpr ⟨Exp.noProgram_leaf nofun rfl, ?_⟩
    exact List.forall_mem_singleton.mpr hlambda
  have typed : predicateAndConstant.typeOf ⟨[[("x", .var "T")]]⟩ (.start ["T"]) =
      .ok (.pair (.proc [.var "T_1"] .boolean) (.proc [.var "T"] (.var "T"))) ⟨["T"], 2⟩ :=
    Check.run?_eq_some_iff.mp (by decide +kernel)
  exact ⟨h, typed, typeOf_substitute (s := .start ["T"]) h noProgram typed⟩

end AnnotatedScheme
