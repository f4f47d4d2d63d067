import AnnotatedScheme.Proofs.Exp.Derivation
import AnnotatedScheme.Proofs.Ty.Grammar
import AnnotatedScheme.Proofs.Typing.Inline
import AnnotatedScheme.Proofs.Typing.Moved

/-!
# Inlining keeps the type

The body of a let is checked where the variable has the type of the value. With the value in the
place of the variable, the value is checked instead, once for each occurrence and further inside,
and it can draw names each time.

* `Stands`                 a variable of one environment has the type that a value has in another one,
                           which is the same otherwise; frames on top of both change nothing
                           (`Stands.extend`), if they bind neither the variable nor what is free in
                           the value;
* `Inlines`                what becomes of a check: the value is put in, or all stays as it is;
* `Exp.Rule.inlines`, `Exp.Rule.inline`  so it is for the checks of a form, and the rule still holds;
* `Exp.typeOf_inline`      the check with the value in it follows the other one, as twins do;
* `Derives.noProgram`      in an expression that was built there is no program;
* `typeOf_inline_of_letIn`  the type of a let, up to the names that are drawn.
-/

namespace AnnotatedScheme

open Supply

variable {reserved : List String} {x : String} {u : Ty} {v : Exp} {env₁ env₂ : Env}

/-! ## the variable and the value -/

/-- `x` has the type `u` in the first environment, `v` has it in the second one, and all other
variables are the same in both -/
structure Stands (reserved : List String) (x : String) (u : Ty) (v : Exp) (env₁ env₂ : Env) :
    Prop where
  lookup : env₁.lookup x = some u
  agree : ∀ y, y ≠ x → env₁.lookup y = env₂.lookup y
  value : ∀ s : Supply, s.reserved = reserved → ∃ s', v.typeOf env₂ s = .ok u s'

theorem Stands.extend (h : Stands reserved x u v env₁ env₂) (noProgram : v.NoProgram)
    {frame : Frame} (hx : x ∉ frame.map Prod.fst) (hfree : ∀ y ∈ v.free, y ∉ frame.map Prod.fst) :
    Stands reserved x u v (env₁.extend frame) (env₂.extend frame) where
  lookup := (Env.lookup_extend_of_not_mem hx).trans h.lookup
  agree := fun y hy => by rw [Env.lookup_extend, Env.lookup_extend, h.agree y hy]
  value := by
    have agree : Env.AgreeOn v.free env₂ (env₂.extend frame) := Env.agreeOn_extend hfree
    exact (Exp.seesFree noProgram _ _ agree).typeOf ▸ h.value

theorem Stands.agreeOn (h : Stands reserved x u v env₁ env₂) {names : List String}
    (hx : x ∉ names) : Env.AgreeOn names env₁ env₂ :=
  fun y hy => h.agree y fun heq => hx (heq ▸ hy)

/-! ## checks -/

inductive Inlines (reserved : List String) (x : String) (u : Ty) (v : Exp) :
    Env × Exp → Env × Exp → Prop
  | inlined {env₁ env₂ : Env} {e : Exp} (stands : Stands reserved x u v env₁ env₂)
      (uncaptured : ∀ y ∈ v.free, y ∉ e.boundAround x) :
      Inlines reserved x u v (env₁, e) (env₂, Exp.inline x v e)
  | unchanged {env₁ env₂ : Env} {e : Exp} (agree : Env.AgreeOn e.free env₁ env₂) :
      Inlines reserved x u v (env₁, e) (env₂, e)

namespace Exp

variable {es : List Exp} {frame : Frame}

theorem inlines_inEnv (stands : Stands reserved x u v env₁ env₂)
    (uncaptured : ∀ y ∈ v.free, y ∉ boundAroundAll x es) :
    List.Forall₂ (Inlines reserved x u v) (inEnv env₁ es) (inEnv env₂ (inlineAll x v es)) := by
  rw [inlineAll_eq_map, inEnv, inEnv, List.map_map, List.forall₂_map_left_iff,
    List.forall₂_map_right_iff]
  refine List.forall₂_same.mpr fun e he => .inlined stands fun y hy hbound => ?_
  exact uncaptured y hy (mem_boundAroundAll.mpr ⟨e, he, hbound⟩)

theorem unchanged_inEnv (agree : Env.AgreeOn (freeAll es) env₁ env₂) :
    List.Forall₂ (Inlines reserved x u v) (inEnv env₁ es) (inEnv env₂ es) := by
  rw [inEnv, inEnv, List.forall₂_map_left_iff, List.forall₂_map_right_iff]
  refine List.forall₂_same.mpr fun e he => .unchanged (agree.mono fun y hy => ?_)
  exact mem_freeAll.mpr ⟨e, he, hy⟩

/-- Under a frame, the variable is bound again, or does not occur, or the frame captures nothing. -/
theorem inlines_extend (stands : Stands reserved x u v env₁ env₂) (noProgram : v.NoProgram)
    (uncaptured : ∀ y ∈ v.free,
      y ∉ around x (frame.map Prod.fst) (freeAll es) (boundAroundAll x es)) :
    List.Forall₂ (Inlines reserved x u v) (inEnv (env₁.extend frame) es)
      (inEnv (env₂.extend frame)
        (if x ∈ frame.map Prod.fst then es else inlineAll x v es)) := by
  by_cases hbound : x ∈ frame.map Prod.fst
  · rw [if_pos hbound]
    refine unchanged_inEnv (Env.AgreeOn.extend fun y hy => stands.agree y ?_)
    rintro rfl
    exact of_decide_eq_true (List.mem_filter.mp hy).2 hbound
  · rw [if_neg hbound]
    by_cases hfree : x ∈ freeAll es
    · refine inlines_inEnv (stands.extend noProgram hbound fun y hy hmem => ?_) fun y hy hmem => ?_
      · exact uncaptured y hy ((mem_around hfree hbound).mpr (.inl hmem))
      · exact uncaptured y hy ((mem_around hfree hbound).mpr (.inr hmem))
    · have hsame : inlineAll x v es = es := by
        rw [inlineAll_eq_map, map_inline_eq_self (fun _ _ => inline_eq_self) hfree]
      rw [hsame]
      refine unchanged_inEnv (Env.AgreeOn.extend (stands.agreeOn fun hmem => ?_))
      exact hfree (List.mem_filter.mp hmem).1

/-- the checks of a form whose parts are checked where it is -/
theorem inlines_checks_app {operator : Exp} {operands : List Exp}
    (stands : Stands reserved x u v env₁ env₂) (plain : PairOperator.ofExp? v = none)
    (uncaptured : ∀ y ∈ v.free, y ∉ (Exp.app operator operands).boundAround x) :
    List.Forall₂ (Inlines reserved x u v) ((Exp.app operator operands).checks env₁)
      ((inline x v (.app operator operands)).checks env₂) := by
  rw [inline, checks, checks, ofExp?_inline plain]
  have hoperands : List.Forall₂ (Inlines reserved x u v) (inEnv env₁ operands)
      (inEnv env₂ (inlineAll x v operands)) :=
    inlines_inEnv stands fun y hy hbound => uncaptured y hy (List.mem_append_right _ hbound)
  split
  · exact hoperands
  · refine .cons (.inlined stands fun y hy hbound => ?_) hoperands
    exact uncaptured y hy (List.mem_append_left _ hbound)

theorem inlines_checks_letrec {bindings body : List Exp}
    (hframe : lambdaFrame? bindings = some frame) (stands : Stands reserved x u v env₁ env₂)
    (noProgram : v.NoProgram)
    (uncaptured : ∀ y ∈ v.free, y ∉ (Exp.letrec bindings body).boundAround x) :
    List.Forall₂ (Inlines reserved x u v) ((Exp.letrec bindings body).checks env₁)
      ((inline x v (.letrec bindings body)).checks env₂) := by
  have hbound := map_fst_lambdaFrame? hframe
  have huncaptured : ∀ y ∈ v.free, y ∉ around x (frame.map Prod.fst)
      (freeAll (values bindings ++ body)) (boundAroundAll x (values bindings ++ body)) :=
    fun y hy hmem => uncaptured y hy (mem_boundAround_letrec (hbound ▸ hmem))
  have hscope := inlines_extend stands noProgram huncaptured
  rw [hbound] at hscope
  rw [inline]
  split
  · rename_i hx
    rw [if_pos hx] at hscope
    rw [checks, checks, hframe]
    exact hscope
  · rename_i hx
    rw [if_neg hx, inlineAll_append, ← values_inlineAll (bound?_of_lambdaFrame? hframe)] at hscope
    rw [checks, checks, lambdaFrame?_inlineAll hframe, hframe]
    exact hscope

variable {e : Exp} {ts : List Ty} {t : Ty}

/-- The checks of a form become those of the form with the value in it. -/
theorem Rule.inlines (hrule : Rule env₁ e ts t) (hvar : ∀ name, e ≠ .var name)
    (hprogram : ∀ forms, e ≠ .program forms) (stands : Stands reserved x u v env₁ env₂)
    (noProgram : v.NoProgram) (plain : PairOperator.ofExp? v = none)
    (uncaptured : ∀ y ∈ v.free, y ∉ e.boundAround x) :
    List.Forall₂ (Inlines reserved x u v) (e.checks env₁) ((inline x v e).checks env₂) := by
  cases hrule with
  | number | boolean | string | quote => exact .nil
  | var => exact absurd rfl (hvar _)
  | conditional =>
    refine inlines_inEnv stands fun y hy hbound => uncaptured y hy ?_
    simpa [boundAroundAll, boundAround] using hbound
  | define =>
    refine inlines_inEnv stands fun y hy hbound => uncaptured y hy ?_
    simpa [boundAroundAll, boundAround] using hbound
  | app | cons | car | cdr => exact inlines_checks_app stands plain uncaptured
  | @lambda params result body frame _ hparams =>
    have hbound := map_fst_frame? hparams
    rw [inline, checks, checks, hparams, Option.getD_some, ← hbound]
    exact inlines_extend stands noProgram (hbound ▸ uncaptured)
  | @letIn bindings body frame _ _ hframe =>
    have hbound := map_fst_boundFrame? hframe
    rw [inline, checks, checks, boundFrame?_inlineAll hframe, hframe, Option.getD_some, ← hbound,
      values_inlineAll (bound?_of_boundFrame? hframe)]
    refine List.rel_append (inlines_inEnv stands fun y hy hmem => ?_)
      (inlines_extend stands noProgram fun y hy hmem => ?_)
    · exact uncaptured y hy (List.mem_append_left _ (mem_boundAroundAll_values hmem))
    · exact uncaptured y hy (List.mem_append_right _ (hbound ▸ hmem))
  | letrec hframe => exact inlines_checks_letrec hframe stands noProgram uncaptured
  | program => exact absurd rfl (hprogram _)

theorem Rule.inline (hrule : Rule env₁ e ts t) (hvar : ∀ name, e ≠ .var name)
    (hprogram : ∀ forms, e ≠ .program forms) (plain : PairOperator.ofExp? v = none) :
    Rule env₂ (Exp.inline x v e) ts t := by
  cases hrule with
  | number value => exact .number value
  | boolean value => exact .boolean value
  | string content => exact .string content
  | var => exact absurd rfl (hvar _)
  | quote hvalue => exact .quote hvalue
  | conditional t => exact .conditional t
  | lambda hparams hlast => exact .lambda hparams hlast
  | app hop params => exact .app ((ofExp?_inline plain _).trans hop) params t
  | cons hop first second => exact .cons ((ofExp?_inline plain _).trans hop) first second
  | car hop => exact .car ((ofExp?_inline plain _).trans hop) _ _
  | cdr hop => exact .cdr ((ofExp?_inline plain _).trans hop) _ _
  | letIn hframe hlast => exact .letIn (boundFrame?_inlineAll hframe) hlast
  | letrec hframe htypes hlast =>
    rw [Exp.inline]
    split
    · exact .letrec hframe htypes hlast
    · refine .letrec (lambdaFrame?_inlineAll hframe) ?_ hlast
      rw [values_inlineAll (bound?_of_lambdaFrame? hframe)]
      exact map_lambdaType?_inlineAll htypes
  | define hd => exact .define hd
  | program => exact absurd rfl (hprogram _)

/-! ## types -/

theorem follow_agreeOn (noProgram : e.NoProgram) (agree : Env.AgreeOn e.free env₁ env₂)
    {w : Twins reserved} {s : Supply} (h : w.Follow (env₁, e) t s) : w.Follow (env₂, e) t s := by
  obtain ⟨w', hleads, hfirst, hknows, htyped⟩ := h
  have hsame : e.typeOf env₁ = e.typeOf env₂ := (seesFree noProgram env₁ env₂ agree).typeOf
  exact ⟨w', hleads, hfirst, hknows, hsame ▸ htyped⟩

/-- The value is checked where the variable was looked up, and only the second run goes on. -/
theorem follow_value (stands : Stands reserved x u v env₁ env₂) {w : Twins reserved}
    (known : ∀ name ∈ u.names, name ∈ reserved) : w.Follow (env₂, v) u w.first := by
  obtain ⟨s', hvalue⟩ := stands.value w.second w.reserved_second
  have hgrows : Grows w.second s' := (typeOf_traced hvalue).1
  have hsame : u.rename w.σ = u :=
    Ty.rename_eq_self fun name hname => w.fixes name (.inl (known name hname))
  refine ⟨w.ahead hgrows, w.leads_ahead hgrows, rfl, fun name hname => .inl (known name hname), ?_⟩
  show v.typeOf env₂ w.second = .ok (u.rename w.σ) s'
  rw [hsame, hvalue]

/-- The check with the value in it follows the check with the variable. -/
theorem typeOf_inline (noProgram : v.NoProgram) (plain : PairOperator.ofExp? v = none)
    (hnoProgram : e.NoProgram) (stands : Stands reserved x u v env₁ env₂)
    (uncaptured : ∀ y ∈ v.free, y ∉ e.boundAround x) {w : Twins reserved}
    (covered : (Call.mk env₁ e w.first).Covered) {s : Supply}
    (h : e.typeOf env₁ w.first = .ok t s) : w.Follow (env₂, inline x v e) t s := by
  induction e using partsInduct generalizing env₁ env₂ w t s with
  | step e ih =>
    by_cases hx : x ∈ e.free
    case neg =>
      rw [inline_eq_self hx]
      exact follow_agreeOn hnoProgram (stands.agreeOn hx) (typeOf_twins covered h)
    have hreserved : ∀ name, name ∈ env₁.names ∨ name ∈ e.names → name ∈ reserved :=
      fun name hname => w.reserved_first ▸ covered name hname
    rcases var_or_not e with ⟨name, rfl⟩ | hvar
    · obtain rfl := List.mem_singleton.mp hx
      obtain ⟨hlookup, rfl⟩ := typeOf_var_eq_ok_iff.mp h
      obtain rfl := Option.some.inj (stands.lookup.symm.trans hlookup)
      rw [inline, if_pos rfl]
      refine follow_value stands fun name hname => hreserved name (.inl ?_)
      exact Env.mem_names_of_lookup stands.lookup hname
    · have hprim : ∀ name, e ≠ .primitive name := by
        rintro name rfl
        exact List.not_mem_nil hx
      obtain ⟨ts, runs, hrule⟩ := (typeOf_eq_ok_iff hprim).mp h
      have hchecks := hrule.inlines hvar hnoProgram.ne stands noProgram plain uncaptured
      have hfollow : ∀ c ∈ e.checks env₁, ∀ d, Inlines reserved x u v c d →
          ∀ (w₁ : Twins reserved) u₁ s₁, c.2.typeOf c.1 w₁.first = .ok u₁ s₁ →
            w₁.Follow d u₁ s₁ := by
        intro c hc d hd w₁ u₁ s₁ hcheck
        have hpart := mem_parts_of_mem_checks hc
        have hcovered := covered.check hc (w₁.reserved_first.trans w.reserved_first.symm)
        cases hd with
        | inlined stands uncaptured =>
          exact ih _ hpart (hnoProgram.part hpart) stands uncaptured hcovered hcheck
        | unchanged agree =>
          exact follow_agreeOn (hnoProgram.part hpart) agree (typeOf_twins hcovered hcheck)
      obtain ⟨w', hleads, hfirst, hknows, runs'⟩ := runs.twins hchecks hfollow rfl
      obtain ⟨hknown, hrule'⟩ := hrule.twins hreserved hknows
      refine ⟨w', hleads, hfirst, hknown, (typeOf_eq_ok_iff ?_).mpr ⟨_, runs', ?_⟩⟩
      · exact inline_ne_primitive hvar hprim
      · exact hrule'.inline hvar hnoProgram.ne plain

/-! ## expressions that are built -/

/-- Only a program is derived from the category of programs and has one in it. -/
theorem Derives.noProgram {c : Category} {d : Datum} (h : Derives c d e) (hc : c ≠ .program) :
    e.NoProgram := by
  intro forms within
  obtain ⟨c', d', h', hc'⟩ := h.nodes_of_ne_program hc within.nodeOf
  cases h' with
  | expression h' => cases h'
  | program => exact hc' rfl

theorem ne_gap_of_derives_letIn {c : Category} {d : Datum} {body : List Exp}
    (h : Derives c d (.letIn [.binding (.decl x u) v] body)) : u ≠ .gap := by
  obtain ⟨_, _, hbinding, -⟩ := h.child List.mem_cons_self
  obtain ⟨_, _, hdecl, -⟩ := hbinding.child List.mem_cons_self
  cases hdecl with
  | decl _ ht =>
    rintro rfl
    cases Ty.derives_of_ofDatum ht
  | expression h => cases h

/-- `car`, `cdr` and `cons` have drawn names in their types. -/
theorem ofExp?_eq_none_of_typeOf {env : Env} {s s' : Supply} (h : v.typeOf env s = .ok u s')
    (known : ∀ name ∈ u.names, name ∈ s.reserved) : PairOperator.ofExp? v = none := by
  refine PairOperator.ofExp?_eq_none_iff.mpr ?_
  rintro name hname rfl
  obtain ⟨signature, hsig, hrename⟩ := typeOf_primitive_eq_ok_iff.mp h
  have hall : ∀ name ∈ ["car", "cdr", "cons"],
      ∃ signature ∈ Primitive.signature? name, "T1" ∈ signature.names := by decide
  obtain ⟨_, hsig', hmem⟩ := hall name hname
  obtain rfl := Option.some.inj (hsig.symm.trans hsig')
  obtain ⟨-, f, hf, hdrawn⟩ := rename_spec signature s
  rw [hrename] at hf hdrawn
  have hnew : f "T1" ∈ u.names := by
    obtain rfl : u = _ := hf
    exact Ty.mem_names_substitute.mpr ⟨"T1", hmem, List.mem_singleton.mpr rfl⟩
  exact (hdrawn "T1" hmem).1.1 (known _ hnew)

/-- A value that has its declared type has it from every supply. -/
theorem stands_of_typeOf {env : Env} {s s' : Supply} (hne : u ≠ .gap)
    (h : v.typeOf env s = .ok u s') (covered : (Call.mk env v s).Covered)
    (known : ∀ name ∈ u.names, name ∈ s.reserved) :
    Stands s.reserved x u v (env.extend [(x, u)]) env where
  lookup := by
    rw [Env.lookup_extend, List.lookup_cons_self]
    exact if_neg hne
  agree := fun y hy => Env.lookup_extend_of_not_mem (by simpa using hy)
  value := fun s₁ hs₁ => typeOf_anywhere h (.of_eq hs₁.symm)
    (fun name hname => hs₁.symm ▸ covered name hname)
    fun name hname => .inl (hs₁.symm ▸ known name hname)

end Exp

/-- If a let of one value and one expression, built of a datum, has a type, then so has the
expression with the value in the place of the variable, as long as no binder around the variable
captures what is free in the value. From supplies that reserve the type variables of the let and of
the environment, the types are the same under a permutation of names, which moves none but numbered
names, no reserved ones and not `literal`. -/
theorem typeOf_inline_of_letIn {d : Datum} {x : String} {u : Ty} {v body : Exp}
    (built : Exp.ofDatum d = .ok (.letIn [.binding (.decl x u) v] [body]))
    (uncaptured : ∀ y ∈ v.free, y ∉ body.boundAround x) {env : Env} {reserved : List String}
    (covers : ∀ name, name ∈ env.names ∨
      name ∈ (Exp.letIn [.binding (.decl x u) v] [body]).names → name ∈ reserved)
    {i : Nat} {t : Ty} {s : Supply}
    (typed : (Exp.letIn [.binding (.decl x u) v] [body]).typeOf env ⟨reserved, i⟩ = .ok t s)
    (j : Nat) :
    ∃ t' s', (Exp.inline x v body).typeOf env ⟨reserved, j⟩ = .ok t' s' ∧
      ∃ σ : Equiv.Perm String, (∀ name, name ∈ reserved ∨ name = "literal" → σ name = name) ∧
        (∀ name, σ name ≠ name → ∃ base index, name = candidate base index) ∧ t' = t.rename σ := by
  have hderives := Exp.derives_of_ofDatum d _ built
  have hnoProgram := hderives.noProgram nofun
  have hvalueProgram : v.NoProgram := hnoProgram.part (List.mem_append_left _ List.mem_cons_self)
  have hbodyProgram : body.NoProgram :=
    hnoProgram.part (List.mem_append_right _ (List.mem_singleton.mpr rfl))
  have hnames : ∀ name, name ∈ u.names ∨ name ∈ v.names ∨ name ∈ body.names → name ∈ reserved := by
    intro name hname
    refine covers name (.inr ?_)
    simpa [Exp.names, Exp.namesAll, or_assoc] using hname
  have known : ∀ name ∈ u.names, name ∈ reserved := fun name hname => hnames name (.inl hname)
  -- the value is checked first, and then the body where the variable has its type
  obtain ⟨frame, s₁, hframe, runs, hbody⟩ := Exp.typeOf_letIn_eq_ok_iff.mp typed
  obtain rfl : [(x, u)] = frame := Option.some.inj hframe
  obtain ⟨s₂, hvalue, runs⟩ := Runs.cons_iff.mp runs
  obtain ⟨-, rfl⟩ := Runs.nil_iff.mp runs
  rw [Exp.typeOfBody_singleton_eq_ok_iff] at hbody
  obtain ⟨reserved', k⟩ := s₂
  obtain rfl : reserved' = reserved := (Exp.typeOf_traced hvalue).1.reserved
  have coveredValue : (Call.mk env v ⟨reserved', i⟩).Covered := by
    rintro name (hname | hname)
    · exact covers name (.inl hname)
    · exact hnames name (.inr (.inl hname))
  have covered : (Call.mk (env.extend [(x, u)]) body ⟨reserved', k⟩).Covered := by
    rintro name (hname | hname)
    · rw [Env.names_extend, List.mem_append] at hname
      refine hname.elim (fun h => known name ?_) fun h => covers name (.inl h)
      simpa [Frame.names] using h
    · exact hnames name (.inr (.inr hname))
  have stands := Exp.stands_of_typeOf (x := x) (Exp.ne_gap_of_derives_letIn hderives) hvalue
    coveredValue known
  have plain := Exp.ofExp?_eq_none_of_typeOf hvalue known
  obtain ⟨w, -, -, -, htyped⟩ := Exp.typeOf_inline hvalueProgram plain hbodyProgram stands uncaptured
    (w := Twins.start reserved' k j) covered hbody
  exact ⟨t.rename w.σ, w.second, htyped, w.σ, w.fixes, w.moves, rfl⟩

/-- `(let () number? y)` -/
def drawingValue : Exp := .letIn [] [.primitive "number?", .var "y"]

/-- `(cons number? (lambda ((z : number)) : boolean x))` -/
def drawingBody : Exp :=
  .app (.primitive "cons") [.primitive "number?", .lambda [.decl "z" .number] .boolean [.var "x"]]

/-- `(let (((x : boolean) (let () number? y))) (cons number? (lambda ((z : number)) : boolean x)))` -/
def drawingLet : Datum :=
  .list [.symbol "let",
    .list [.list [.list [.symbol "x", .symbol ":", .symbol "boolean"],
      .list [.symbol "let", .list [], .symbol "number?", .symbol "y"]]],
    .list [.symbol "cons", .symbol "number?",
      .list [.symbol "lambda", .list [.list [.symbol "z", .symbol ":", .symbol "number"]],
        .symbol ":", .symbol "boolean", .symbol "x"]]]

/-- the type of a pair of a predicate, for which a name is drawn, and a procedure -/
def predicateAndProcedure (name : String) : Ty :=
  .pair (.proc [.var name] .boolean) (.proc [.number] .boolean)

/-- The value draws a name before the body is checked, and inside of the body if it is put there. -/
theorem drawingLet_inlined :
    Exp.ofDatum drawingLet =
        .ok (.letIn [.binding (.decl "x" .boolean) drawingValue] [drawingBody]) ∧
      (∀ y ∈ drawingValue.free, y ∉ drawingBody.boundAround "x") ∧
      (Exp.letIn [.binding (.decl "x" .boolean) drawingValue] [drawingBody]).typeOf
        ⟨[[("y", .boolean)]]⟩ ⟨[], 1⟩ = .ok (predicateAndProcedure "T_2") ⟨[], 3⟩ ∧
      (Exp.inline "x" drawingValue drawingBody).typeOf ⟨[[("y", .boolean)]]⟩ ⟨[], 1⟩ =
        .ok (predicateAndProcedure "T_1") ⟨[], 3⟩ ∧
      ∃ σ : Equiv.Perm String, σ "literal" = "literal" ∧
        predicateAndProcedure "T_1" = (predicateAndProcedure "T_2").rename σ := by
  have built : Exp.ofDatum drawingLet =
      .ok (.letIn [.binding (.decl "x" .boolean) drawingValue] [drawingBody]) := rfl
  have uncaptured : ∀ y ∈ drawingValue.free, y ∉ drawingBody.boundAround "x" := by decide
  have covers : ∀ name, name ∈ Env.names ⟨[[("y", .boolean)]]⟩ ∨
      name ∈ (Exp.letIn [.binding (.decl "x" .boolean) drawingValue] [drawingBody]).names →
        name ∈ [] := by
    rintro name (h | h) <;> exact h
  have typed : (Exp.letIn [.binding (.decl "x" .boolean) drawingValue] [drawingBody]).typeOf
      ⟨[[("y", .boolean)]]⟩ ⟨[], 1⟩ = .ok (predicateAndProcedure "T_2") ⟨[], 3⟩ :=
    Check.run?_eq_some_iff.mp (by decide +kernel)
  have inlined : (Exp.inline "x" drawingValue drawingBody).typeOf ⟨[[("y", .boolean)]]⟩ ⟨[], 1⟩ =
      .ok (predicateAndProcedure "T_1") ⟨[], 3⟩ := Check.run?_eq_some_iff.mp (by decide +kernel)
  obtain ⟨t', s', htyped, σ, fixes, -, htype⟩ :=
    typeOf_inline_of_letIn built uncaptured covers typed 1
  obtain ⟨rfl, -⟩ := EStateM.Result.ok.inj (inlined.symm.trans htyped)
  exact ⟨built, uncaptured, typed, inlined, σ, fixes "literal" (.inr rfl), htype⟩

end AnnotatedScheme
