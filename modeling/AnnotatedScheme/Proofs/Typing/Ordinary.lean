import AnnotatedScheme.Proofs.Env.Basic
import AnnotatedScheme.Proofs.Exp.Shape
import AnnotatedScheme.Proofs.Ty.Supply
import AnnotatedScheme.Proofs.Typing.Rule

/-!
# Trees of the grammar have ordinary outcomes

A tree of the grammar, checked in an environment without gaps, gives a type without gaps or an
ordinary error: one with a message, that is not kept for trees built by hand
(`TypingError.IsOrdinary`). The variables in the type are those that the environment and the
annotations allow, `literal`, and numbered names (`IsGenerated`).

`Exp.IsProgram.ensures` is the result; before it stands one lemma for each list that a check goes
through.
-/

namespace AnnotatedScheme

/-- the errors of trees that the grammar does not allow -/
def TypingError.isDefensive : TypingError → Bool
  | .emptyBody | .emptySequence | .misplaced _ | .missingExpression | .missingValue => true
  | _ => false

def TypingError.IsOrdinary (e : TypingError) : Prop := e.gap? = none ∧ e.isDefensive = false

/-- the type variables that the checker brings in -/
def IsGenerated (name : String) : Prop :=
  name = "literal" ∨ ∃ base ∈ ["T", "T1", "T2"], ∃ index, name = Supply.candidate base index

/-- the conditions on names that the checker keeps: symbols read as type variables have them, and so
do the names it brings in -/
structure Keeps (Q P : String → Prop) : Prop where
  read : ∀ name, IsTypeName Q name → P name
  generated : ∀ name, IsGenerated name → P name

variable {Q P : String → Prop}

/-! ## bindings of the grammar -/

theorem over_declared (keeps : Keeps Q P) {bounds : List Bound}
    (h : ∀ b ∈ bounds, IsDeclaration Q b.declaration) :
    ∀ entry ∈ bounds.map Bound.declaration, entry.2.Over P :=
  List.forall_mem_map.mpr fun b hb => (h b hb).type.mono keeps.read

namespace Exp

open Check TypingError

theorem frame?_decls (frame : Frame) : frame? (decls frame) = some frame := by
  rw [frame?, mapM_eq_some_iff, decls, List.map_map]
  rfl

theorem values_map_binding (bounds : List Bound) :
    values (bounds.map Bound.binding) = bounds.map Bound.value := by
  rw [values, List.filterMap_map, ← List.filterMap_eq_map]
  rfl

theorem boundFrame?_map_binding (bounds : List Bound) :
    boundFrame? (bounds.map Bound.binding) = some (bounds.map Bound.declaration) := by
  rw [boundFrame?, mapM_eq_some_iff, List.map_map, List.map_map]
  rfl

theorem over_of_lambdaType? (keeps : Keeps Q P) {value : Exp} (h : value.IsExpression Q) {t : Ty}
    (ht : value.lambdaType? = some t) : t.Over P := by
  cases h with
  | @lambda params result body hparams hresult =>
    rw [lambdaType?, frame?_decls] at ht
    obtain rfl := Option.some.inj ht
    have htypes : ∀ p ∈ params, p.2.Over P := fun p hp => (hparams p hp).type.mono keeps.read
    exact .proc (List.forall_mem_map.mpr htypes) (hresult.mono keeps.read)
  | _ => cases ht

theorem over_lambdaFrame? (keeps : Keeps Q P) {bounds : List Bound}
    (h : ∀ b ∈ bounds, b.value.IsExpression Q) {frame : Frame}
    (hframe : lambdaFrame? (bounds.map Bound.binding) = some frame) :
    ∀ entry ∈ frame, entry.2.Over P := by
  induction bounds generalizing frame with
  | nil =>
    obtain rfl := Option.some.inj hframe
    exact nofun
  | cons b rest ih =>
    obtain ⟨d, value, t, tail, hb, ht, htail, rfl⟩ := lambdaFrame?_cons_eq_some_iff.mp hframe
    obtain ⟨rfl, rfl⟩ := Prod.mk.inj (Option.some.inj hb)
    have htype := over_of_lambdaType? keeps (h b List.mem_cons_self) ht
    have hrest := ih (fun b hb => h b (List.mem_cons_of_mem _ hb)) htail
    exact List.forall_mem_cons.mpr ⟨htype, hrest⟩

/-! ## lists in a check -/

theorem isOrdinary_incompatible {left right : Ty} {site : Exp} (hl : left.Over P)
    (hr : right.Over P) (hsite : site.gap? = none) :
    IsOrdinary (.incompatible left right site) :=
  ⟨by rw [TypingError.gap?, hl.gap?, hr.gap?, hsite]; rfl, rfl⟩

section

variable {env : Env} {es : List Exp}
  (each : ∀ e ∈ es, Ensures (Ty.Over P) IsOrdinary (e.typeOf env))
include each

theorem ensures_typeOfBody (nonempty : es ≠ []) :
    Ensures (Ty.Over P) IsOrdinary (typeOfBody env es) := by
  induction es with
  | nil => exact absurd rfl nonempty
  | cons e rest ih =>
    rw [typeOfBody]
    refine (each e List.mem_cons_self).bind fun t ht => ?_
    cases rest with
    | nil => exact .pure ht
    | cons next rest =>
      exact ih (fun e he => each e (List.mem_cons_of_mem _ he)) (List.cons_ne_nil next rest)

theorem ensures_typeOfCons {site : Exp} (hsite : site.gap? = none) :
    Ensures (Ty.Over P) IsOrdinary (typeOfCons env site es) := by
  match es with
  | [first, second] =>
    refine (each first (by simp)).bind fun t ht => ?_
    exact (each second (by simp)).bind fun u hu => .pure (.pair ht hu)
  | [] | [_] | _ :: _ :: _ :: _ => exact .throw ⟨hsite, rfl⟩

theorem ensures_typeOfAccess {access : PairOperator} {site : Exp} (hsite : site.gap? = none) :
    Ensures (Ty.Over P) IsOrdinary (typeOfAccess env access site es) := by
  match es with
  | [operand] =>
    refine (each operand (by simp)).bind fun t ht => ?_
    have hother : IsOrdinary (.nonPair access.name t site) :=
      ⟨by rw [TypingError.gap?, ht.gap?, hsite]; rfl, rfl⟩
    cases ht with
    | pair hfirst hsecond =>
      refine .pure ?_
      split
      · exact hfirst
      · exact hsecond
    | _ => exact .throw hother
  | [] | _ :: _ :: _ => exact .throw ⟨hsite, rfl⟩

theorem ensures_checkOperands {params : List Ty} (hparams : ∀ t ∈ params, t.Over P) {site : Exp}
    (hsite : site.gap? = none) :
    Ensures (fun _ => True) IsOrdinary (checkOperands env site es params) := by
  induction es generalizing params with
  | nil => exact .pure trivial
  | cons e rest ih =>
    cases params with
    | nil => exact .pure trivial
    | cons t params =>
      refine (each e List.mem_cons_self).bind fun u hu => ?_
      have ht := hparams t List.mem_cons_self
      refine (Ensures.requireEqual (isOrdinary_incompatible hu ht hsite)).bind fun _ _ => ?_
      exact ih (fun e he => each e (List.mem_cons_of_mem _ he))
        fun t ht => hparams t (List.mem_cons_of_mem _ ht)

end

theorem ensures_frameOfLet {env : Env} {bounds : List Bound} (keeps : Keeps Q P)
    (hbounds : ∀ b ∈ bounds, IsDeclaration Q b.declaration)
    (each : ∀ b ∈ bounds, Ensures (Ty.Over P) IsOrdinary (b.value.typeOf env)) {site : Exp}
    (hsite : site.gap? = none) :
    Ensures (· = bounds.map Bound.declaration) IsOrdinary
      (frameOfLet env site (bounds.map Bound.binding)) := by
  induction bounds with
  | nil => exact .pure rfl
  | cons b rest ih =>
    refine (each b List.mem_cons_self).bind fun t ht => ?_
    have htype := (hbounds b List.mem_cons_self).type.mono keeps.read
    have hdeclare : Ensures (· = b.declaration) IsOrdinary
        (Check.declare (.decl b.name b.type) t site) :=
      Ensures.declare rfl (isOrdinary_incompatible htype ht hsite)
    have hrest := ih (fun b hb => hbounds b (List.mem_cons_of_mem _ hb))
      fun b hb => each b (List.mem_cons_of_mem _ hb)
    refine hdeclare.bind fun entry hentry => hrest.bind fun tail htail => .pure ?_
    rw [hentry, htail]
    rfl

theorem ensures_checkLambdas {env : Env} {site : Exp} {bounds : List Bound}
    (each : ∀ b ∈ bounds, Ensures (fun _ => True) IsOrdinary (checkLambda env site b.value)) :
    Ensures (fun _ => True) IsOrdinary (checkLambdas env site (bounds.map Bound.binding)) := by
  induction bounds with
  | nil => exact .pure trivial
  | cons b rest ih =>
    exact (each b List.mem_cons_self).bind fun _ _ =>
      ih fun b hb => each b (List.mem_cons_of_mem _ hb)

theorem IsForm.scopeBehind {env : Env} {e : Exp} (keeps : Keeps Q P) (he : e.IsForm Q)
    (henv : env.Over P) :
    (∀ env', scopeBehind env e = .ok env' → env'.Over P) ∧
      ∀ error, Exp.scopeBehind env e = .error error → error.IsOrdinary := by
  cases he with
  | define hdecl =>
    refine ⟨fun env' h => ?_, fun error h => ?_⟩
    · refine henv.combine (henv.extend ?_) (Except.mapError_eq_ok_iff.mp h)
      exact List.forall_mem_singleton.mpr (hdecl.type.mono keeps.read)
    · change (env.combine _).mapError _ = _ at h
      cases hcombine : env.combine _ with
      | error name =>
        rw [hcombine] at h
        exact Except.error.inj h ▸ ⟨rfl, rfl⟩
      | ok env' =>
        rw [hcombine] at h
        cases h
  | expression he =>
    cases he <;> exact ⟨fun env' h => Except.ok.inj h ▸ henv, nofun⟩

theorem ensures_typeOfForms {forms : List Exp} (keeps : Keeps Q P)
    (hforms : ∀ e ∈ forms, e.IsForm Q)
    (each : ∀ e ∈ forms, ∀ env : Env, env.Over P →
      Ensures (Ty.Over P) IsOrdinary (e.typeOf env)) (nonempty : forms ≠ [])
    {env : Env} (henv : env.Over P) : Ensures (Ty.Over P) IsOrdinary (typeOfForms env forms) := by
  induction forms generalizing env with
  | nil => exact absurd rfl nonempty
  | cons e rest ih =>
    rw [typeOfForms]
    refine (each e List.mem_cons_self env henv).bind fun t ht => ?_
    obtain ⟨hok, herror⟩ := (hforms e List.mem_cons_self).scopeBehind keeps henv
    refine (Ensures.ofExcept hok herror).bind fun env' henv' => ?_
    cases rest with
    | nil => exact .pure ht
    | cons next rest =>
      exact ih (fun e he => hforms e (List.mem_cons_of_mem _ he))
        (fun e he => each e (List.mem_cons_of_mem _ he)) (List.cons_ne_nil next rest) henv'

/-! ## leaves -/

theorem over_signature {name : String} {t : Ty} (h : Primitive.signature? name = some t) :
    t.Over (· ∈ ["T", "T1", "T2"]) := by
  have hall : ∀ p ∈ Primitive.signatures, p.2.hasGap = false ∧
      ∀ x ∈ p.2.names, x ∈ ["T", "T1", "T2"] := by decide
  exact Ty.over_iff.mpr (hall (name, t) (mem_of_lookup_eq_some h))

theorem ensures_typeOfPrimitive (keeps : Keeps Q P) (name : String) :
    Ensures (Ty.Over P) IsOrdinary (typeOfPrimitive name) := by
  unfold typeOfPrimitive
  cases hsig : Primitive.signature? name with
  | none => exact .throw ⟨rfl, rfl⟩
  | some t =>
    intro s
    show (Supply.rename t s).1.Over P
    obtain ⟨-, f, hf, hnames⟩ := Supply.rename_spec t s
    obtain ⟨hgap, hbase⟩ := Ty.over_iff.mp (over_signature hsig)
    rw [hf]
    have hover : t.Over fun x => x ∈ t.names ∧ x ∈ ["T", "T1", "T2"] :=
      Ty.over_iff.mpr ⟨hgap, fun x hx => ⟨hx, hbase x hx⟩⟩
    refine hover.substitute fun x hx => .var (keeps.generated _ ?_)
    obtain ⟨-, index, hindex⟩ := hnames x hx.1
    exact .inr ⟨x, hx.2, index, hindex⟩

theorem over_typeInside (hliteral : P "literal") {value : Value} (h : value.Over Q) :
    ∃ t, value.typeInside = .ok t ∧ t.Over P := by
  induction h with
  | @atom value =>
    refine ⟨_, rfl, ?_⟩
    cases value with
    | symbol => exact .var hliteral
    | _ => constructor
  | empty => exact ⟨_, rfl, .empty⟩
  | cell _ _ ihf ihs =>
    obtain ⟨t, ht, hto⟩ := ihf
    obtain ⟨u, hu, huo⟩ := ihs
    exact ⟨.pair t u, by rw [Value.typeInside, ht, hu]; rfl, .pair hto huo⟩

theorem over_typeQuoted (hliteral : P "literal") {value : Value} (h : value.Over Q) :
    ∃ t, value.typeQuoted = .ok t ∧ t.Over P := by
  cases value with
  | cell => exact over_typeInside hliteral h
  | _ => exact ⟨_, rfl, .var hliteral⟩

/-! ## forms with parts -/

section

variable {env : Env}

theorem ensures_conditional {test consequent alternative : Exp}
    (hsite : (Exp.conditional test consequent alternative).gap? = none)
    (htest : Ensures (Ty.Over P) IsOrdinary (test.typeOf env))
    (hconsequent : Ensures (Ty.Over P) IsOrdinary (consequent.typeOf env))
    (halternative : Ensures (Ty.Over P) IsOrdinary (alternative.typeOf env)) :
    Ensures (Ty.Over P) IsOrdinary ((Exp.conditional test consequent alternative).typeOf env) := by
  rw [typeOf]
  refine htest.bind fun t ht => ?_
  refine (Ensures.requireEqual (isOrdinary_incompatible ht .boolean hsite)).bind fun _ _ => ?_
  refine hconsequent.bind fun u hu => halternative.bind fun v hv => ?_
  exact (Ensures.requireEqual (isOrdinary_incompatible hu hv hsite)).bind fun _ _ => .pure hu

theorem ensures_app {operator : Exp} {operands : List Exp}
    (hsite : (Exp.app operator operands).gap? = none)
    (hoperator : Ensures (Ty.Over P) IsOrdinary (operator.typeOf env))
    (each : ∀ e ∈ operands, Ensures (Ty.Over P) IsOrdinary (e.typeOf env)) :
    Ensures (Ty.Over P) IsOrdinary ((Exp.app operator operands).typeOf env) := by
  rw [typeOf]
  split
  · exact ensures_typeOfCons each hsite
  · exact ensures_typeOfAccess each hsite
  · refine hoperator.bind fun t ht => ?_
    have hother : IsOrdinary (.nonProcedure t (.app operator operands)) :=
      ⟨by rw [TypingError.gap?, ht.gap?, hsite]; rfl, rfl⟩
    cases ht with
    | @proc params result hparams hresult =>
      have hcheck := ensures_checkOperands each hparams hsite
      have hrest := hcheck.bind fun _ _ =>
        (.pure hresult : Ensures (Ty.Over P) IsOrdinary (pure result))
      have hcount : IsOrdinary (.operandCount (.app operator operands)) := ⟨hsite, rfl⟩
      dsimp only
      split
      · have hthrow : Ensures (fun _ : PUnit => True) IsOrdinary
            (throw (.operandCount (.app operator operands))) := .throw hcount
        exact hthrow.bind fun _ _ => hrest
      · exact hrest
    | _ => exact .throw hother

/-- a lambda as an expression, and as a value in a letrec -/
theorem ensures_lambda {params : Frame} {result : Ty} {body : List Exp}
    (hsite : (Exp.lambda (decls params) result body).gap? = none)
    (hparams : ∀ p ∈ params, p.2.Over P) (hresult : result.Over P)
    (hbody : Ensures (Ty.Over P) IsOrdinary (typeOfBody (env.extend params) body)) :
    Ensures (Ty.Over P) IsOrdinary ((Exp.lambda (decls params) result body).typeOf env) ∧
      ∀ site : Exp, site.gap? = none → Ensures (fun _ => True) IsOrdinary
        (checkLambda env site (.lambda (decls params) result body)) := by
  refine ⟨?_, fun site hsite => ?_⟩
  · rw [typeOf, frame?_decls]
    refine hbody.bind fun t ht => ?_
    refine (Ensures.requireEqual (isOrdinary_incompatible ht hresult hsite)).bind fun _ _ => ?_
    exact .pure (.proc (List.forall_mem_map.mpr hparams) hresult)
  · rw [checkLambda, frame?_decls]
    refine hbody.bind fun t ht => ?_
    exact Ensures.requireEqual (isOrdinary_incompatible ht hresult hsite)

theorem ensures_letrec (keeps : Keeps Q P) (henv : env.Over P) {bounds : List Bound}
    {body : List Exp} (hsite : (Exp.letrec (bounds.map Bound.binding) body).gap? = none)
    (hvalues : ∀ b ∈ bounds, b.value.IsExpression Q) (nonempty : body ≠ [])
    (eachValue : ∀ b ∈ bounds, ∀ env : Env, env.Over P → ∀ site : Exp, site.gap? = none →
      Ensures (fun _ => True) IsOrdinary (checkLambda env site b.value))
    (each : ∀ e ∈ body, ∀ env : Env, env.Over P →
      Ensures (Ty.Over P) IsOrdinary (e.typeOf env)) :
    Ensures (Ty.Over P) IsOrdinary
      ((Exp.letrec (bounds.map Bound.binding) body).typeOf env) := by
  rw [typeOf]
  cases hframe : lambdaFrame? (bounds.map Bound.binding) with
  | none => exact .throw ⟨hsite, rfl⟩
  | some frame =>
    have henv' : (env.extend frame).Over P := henv.extend (over_lambdaFrame? keeps hvalues hframe)
    refine (ensures_checkLambdas fun b hb => eachValue b hb _ henv' _ hsite).bind fun _ _ => ?_
    exact ensures_typeOfBody (fun e he => each e he _ henv') nonempty

end

/-! ## expressions, forms and programs -/

/-- The values of a letrec are not typed as expressions but checked as lambdas, so both go through
the induction. -/
theorem IsExpression.ensures_both (keeps : Keeps Q P) {e : Exp} (he : e.IsExpression Q) :
    ∀ env : Env, env.Over P → Ensures (Ty.Over P) IsOrdinary (e.typeOf env) ∧
      ∀ site : Exp, site.gap? = none →
        Ensures (fun _ => True) IsOrdinary (checkLambda env site e) := by
  induction he with
  | number => exact fun _ _ => ⟨.pure .number, fun _ _ => .pure trivial⟩
  | boolean => exact fun _ _ => ⟨.pure .boolean, fun _ _ => .pure trivial⟩
  | string => exact fun _ _ => ⟨.pure .string, fun _ _ => .pure trivial⟩
  | @primitive name =>
    intro env henv
    exact ⟨ensures_typeOfPrimitive keeps name, fun _ _ => .pure trivial⟩
  | @var name =>
    intro env henv
    refine ⟨?_, fun _ _ => .pure trivial⟩
    rw [typeOf]
    cases hx : env.lookup name with
    | none => exact .throw ⟨rfl, rfl⟩
    | some t => exact .pure (henv.lookup hx)
  | conditional htest hconsequent halternative iht ihc iha =>
    have hsite := (IsExpression.conditional htest hconsequent halternative).gap?
    intro env henv
    refine ⟨?_, fun _ _ => .pure trivial⟩
    exact ensures_conditional hsite (iht env henv).1 (ihc env henv).1 (iha env henv).1
  | @lambda params result body hparams hresult nonempty hbody ih =>
    have hsite := (IsExpression.lambda hparams hresult nonempty hbody).gap?
    intro env henv
    have htypes : ∀ p ∈ params, p.2.Over P := fun p hp => (hparams p hp).type.mono keeps.read
    have henv' : (env.extend params).Over P := henv.extend htypes
    have hbody := ensures_typeOfBody (fun e he => (ih e he _ henv').1) nonempty
    exact ensures_lambda hsite htypes (hresult.mono keeps.read) hbody
  | app hoperator hoperands iho ih =>
    have hsite := (IsExpression.app hoperator hoperands).gap?
    intro env henv
    refine ⟨?_, fun _ _ => .pure trivial⟩
    exact ensures_app hsite (iho env henv).1 fun e he => (ih e he env henv).1
  | letIn hbounds hvalues nonempty hbody ihv ihb =>
    have hsite := (IsExpression.letIn hbounds hvalues nonempty hbody).gap?
    intro env henv
    refine ⟨?_, fun _ _ => .pure trivial⟩
    rw [typeOf]
    have hframe := ensures_frameOfLet keeps hbounds (fun b hb => (ihv b hb env henv).1) hsite
    have henv' := henv.extend (over_declared keeps hbounds)
    refine hframe.bind fun frame h => ?_
    subst h
    exact ensures_typeOfBody (fun e he => (ihb e he _ henv').1) nonempty
  | letrec hbounds hvalues nonempty hbody ihv ihb =>
    have hsite := (IsExpression.letrec hbounds hvalues nonempty hbody).gap?
    intro env henv
    refine ⟨?_, fun _ _ => .pure trivial⟩
    exact ensures_letrec keeps henv hsite hvalues nonempty
      (fun b hb env henv => (ihv b hb env henv).2) fun e he env henv => (ihb e he env henv).1
  | quote h =>
    intro env henv
    refine ⟨?_, fun _ _ => .pure trivial⟩
    obtain ⟨t, ht, hover⟩ := over_typeQuoted (keeps.generated _ (.inl rfl)) h
    refine .ofExcept (fun u hu => ?_) fun error herror => ?_
    · rw [ht] at hu
      exact Except.ok.inj hu ▸ hover
    · rw [ht] at herror
      cases herror

theorem IsForm.ensures (keeps : Keeps Q P) {e : Exp} (he : e.IsForm Q) {env : Env}
    (henv : env.Over P) : Ensures (Ty.Over P) IsOrdinary (e.typeOf env) := by
  have hsite := he.gap?
  cases he with
  | expression he => exact (he.ensures_both keeps env henv).1
  | @define name declared value hdecl hvalue =>
    rw [typeOf]
    have hdeclared := hdecl.type.mono keeps.read
    refine (hvalue.ensures_both keeps env henv).1.bind fun t ht => ?_
    have hdeclare : Ensures (· = (name, declared)) IsOrdinary
        (Check.declare (.decl name declared) t (.define (.decl name declared) value)) :=
      Ensures.declare rfl (isOrdinary_incompatible hdeclared ht hsite)
    exact hdeclare.discarded.bind fun _ _ => .pure .void

theorem IsProgram.ensures (keeps : Keeps Q P) {e : Exp} (he : e.IsProgram Q) {env : Env}
    (henv : env.Over P) : Ensures (Ty.Over P) IsOrdinary (e.typeOf env) := by
  cases he with
  | form he => exact he.ensures keeps henv
  | program nonempty hforms =>
    exact ensures_typeOfForms keeps hforms (fun e he env henv => (hforms e he).ensures keeps henv)
      nonempty henv

end Exp

end AnnotatedScheme
