import AnnotatedScheme.Proofs.Env.Combine
import AnnotatedScheme.Proofs.Typing.Fresh

/-!
# Which reference a generated name comes from

A check of an expression makes calls for the expressions in it, and of these only references to
primitives draw names. Each call stands at a path of part numbers (`Call.At`), so that a name that is
drawn can be told where it comes from: from the path of the reference and from the variable of its
signature (`Call.Draws`).

* `Call.At.drawn`           a name that is drawn inside of a call is drawn between its two supplies;
* `Call.At.unique_of_draws` a name is drawn at one path only, and for one variable: calls for two
                            parts follow one another, and the index of the supply does not fall;
* `Call.Yields.origin`      the variables of a type are those of the environment and the annotations,
                            `literal`, or drawn inside of the call;
* `Call.Pushes`             the frames that a call puts on top of an environment: for a lambda, a let
                            or a letrec, or for a definition among the forms of a program;
* `Call.Reaches.frames`     there are no other frames around the expressions in a call;
* `origin_of_names`         where the type variables of a result come from.
-/

namespace AnnotatedScheme

open Supply

namespace Call

/-- the call at a path of part numbers inside of a call -/
inductive At : Call → List Nat → Call → Prop
  | root (c : Call) : At c [] c
  | part {c next c' : Call} {i : Nat} {path : List Nat} (h : c.Makes i next)
      (below : At next path c') : At c (i :: path) c'

/-- the reference to a primitive draws `name` for the variable `base` of its signature -/
def Draws (c : Call) (base name : String) : Prop :=
  ∃ primitive signature, c.exp = .primitive primitive ∧
    Primitive.signature? primitive = some signature ∧ base ∈ signature.names ∧
      name = renamed (freshEach signature.names.eraseDups c.supply).1 base

/-- `name` is drawn inside of the call -/
def Generates (c : Call) (name : String) : Prop :=
  ∃ path c' base, c.At path c' ∧ c'.Draws base name

/-- `frame` is put on top of the environment of the call, or of that of a form of the program -/
inductive Pushes (c : Call) (frame : Frame) : Prop
  | lambda {params body : List Exp} {result : Ty} (hexp : c.exp = .lambda params result body)
      (hframe : Exp.frame? params = some frame)
  | letIn {bindings body : List Exp} (hexp : c.exp = .letIn bindings body)
      (hframe : Exp.boundFrame? bindings = some frame)
  | letrec {bindings body : List Exp} (hexp : c.exp = .letrec bindings body)
      (hframe : Exp.lambdaFrame? bindings = some frame)
  | define {forms : List Exp} {env : Env} {form : Exp} (hexp : c.exp = .program forms)
      (hform : (env, form) ∈ Exp.scopes c.env forms)
      (hframe : Exp.scopeBehind env form = .ok (env.extend frame))

variable {c c' next next' : Call} {i j : Nat} {t : Ty} {s s' s₁ : Supply} {base name : String}
  {path path' : List Nat}

/-! ## calls for parts -/

theorem not_makes_of_primitive {primitive : String} (hexp : c.exp = .primitive primitive) :
    ¬c.Makes i next := by
  rintro ⟨hcheck, -⟩
  rw [hexp] at hcheck
  cases hcheck

/-- A call for a part is made in between. -/
theorem Makes.between (h : c.Makes i next) (typed : c.exp.typeOf c.env c.supply = .ok t s') :
    ∃ u s₁, next.exp.typeOf next.env next.supply = .ok u s₁ ∧
      Grows c.supply next.supply ∧ Grows s₁ s' := by
  rcases Exp.primitive_or_not c.exp with ⟨primitive, hexp⟩ | hprim
  · exact absurd h (not_makes_of_primitive hexp)
  · obtain ⟨ts, runs, -⟩ := (Exp.typeOf_eq_ok_iff hprim).mp typed
    obtain ⟨u, s₀, s₁, -, front, hcheck, back⟩ := runs.check h.1
    obtain ⟨-, us, front'⟩ := h
    obtain ⟨-, rfl⟩ := front.unique front'
    exact ⟨u, s₁, hcheck, front.grows, back.grows⟩

/-- A call for a later part starts behind the one for an earlier part. -/
theorem Makes.grows_of_lt (h : c.Makes i next) (h' : c.Makes j next') (hlt : i < j) {u : Ty}
    (typed : next.exp.typeOf next.env next.supply = .ok u s₁) : Grows s₁ next'.supply := by
  obtain ⟨-, ts, runs⟩ := h'
  have hcheck : ((c.exp.checks c.env).take j)[i]? = some (next.env, next.exp) := by
    rw [List.getElem?_take_of_lt hlt]
    exact h.1
  obtain ⟨u', s₀, s₂, -, front, typed', back⟩ := runs.check hcheck
  obtain ⟨-, us, front'⟩ := h
  rw [List.take_take, Nat.min_eq_left (Nat.le_of_lt hlt)] at front
  obtain ⟨-, rfl⟩ := front.unique front'
  obtain ⟨-, rfl⟩ := EStateM.Result.ok.inj (typed.symm.trans typed')
  exact back.grows

theorem Makes.reserved (h : c.Makes i next) : next.supply.reserved = c.supply.reserved := by
  obtain ⟨-, ts, runs⟩ := h
  exact runs.grows.reserved

/-- a type in a run through the parts comes out of the call for its part -/
theorem exists_makes_of_runs {ts : List Ty} (runs : Runs (c.exp.checks c.env) c.supply ts s')
    {u : Ty} (hi : ts[i]? = some u) : ∃ next, c.Makes i next ∧ next.Yields u := by
  have hlt : i < c.exp.parts.length := by
    rw [← Exp.map_snd_checks c.env, List.length_map, ← runs.length_eq]
    exact (List.getElem?_eq_some_iff.mp hi).1
  obtain ⟨next, t, hmakes, -, ht, hyields⟩ := makes_of_runs runs (List.getElem?_eq_getElem hlt)
  obtain rfl := Option.some.inj (hi.symm.trans ht)
  exact ⟨next, hmakes, hyields⟩

theorem At.reaches (h : c.At path c') : c.Reaches c' := by
  induction h with
  | root c => exact .refl c
  | part hmakes _ ih => exact .step hmakes ih

/-! ## names that are drawn -/

theorem Draws.drawn (h : c.Draws base name) (typed : c.exp.typeOf c.env c.supply = .ok t s') :
    Drawn c.supply s' name ∧ ∃ index, name = candidate base index := by
  obtain ⟨primitive, signature, hexp, hsig, hbase, rfl⟩ := h
  rw [hexp] at typed
  obtain ⟨signature', hsig', hrename⟩ := Exp.typeOf_primitive_eq_ok_iff.mp typed
  obtain rfl := Option.some.inj (hsig.symm.trans hsig')
  obtain ⟨-, hdrawn⟩ := freshEach_spec signature.names.eraseDups c.supply
  obtain ⟨index, hlookup, hnew⟩ := hdrawn base (List.mem_eraseDups.mpr hbase)
  obtain ⟨-, rfl⟩ := Prod.mk.inj hrename
  rw [renamed, hlookup]
  exact ⟨hnew, index, rfl⟩

theorem At.drawn (h : c.At path c') (draws : c'.Draws base name)
    (typed : c.exp.typeOf c.env c.supply = .ok t s') : Drawn c.supply s' name := by
  induction h generalizing t s' with
  | root c => exact (draws.drawn typed).1
  | part hmakes _ ih =>
    obtain ⟨u, s₁, hnext, hfront, hback⟩ := hmakes.between typed
    exact ((ih draws hnext).of_front hback).of_back hfront

/-- A name is not drawn inside of the calls for two parts. -/
theorem Makes.not_both (h : c.Makes i next) (h' : c.Makes j next') (hlt : i < j)
    (typed : c.exp.typeOf c.env c.supply = .ok t s') {c₁ c₂ : Call} {base' : String}
    (below : next.At path c₁) (draws : c₁.Draws base name) (below' : next'.At path' c₂) :
    ¬c₂.Draws base' name := by
  intro draws'
  obtain ⟨u, s₁, hnext, -⟩ := h.between typed
  obtain ⟨u', s₂, hnext', -⟩ := h'.between typed
  have hgrows := h.grows_of_lt h' hlt hnext
  exact (below.drawn draws hnext).not_later ((below'.drawn draws' hnext').of_back hgrows)

theorem At.unique_of_draws (typed : c.exp.typeOf c.env c.supply = .ok t s') {c₁ c₂ : Call}
    {base' : String} (h : c.At path c₁) (draws : c₁.Draws base name) (h' : c.At path' c₂)
    (draws' : c₂.Draws base' name) : path = path' ∧ base = base' := by
  induction h generalizing t s' path' with
  | root c =>
    cases h' with
    | root =>
      obtain ⟨-, index, rfl⟩ := draws.drawn typed
      obtain ⟨-, index', hname⟩ := draws'.drawn typed
      exact ⟨rfl, candidate_base_inj hname⟩
    | part hmakes =>
      obtain ⟨primitive, -, hexp, -⟩ := draws
      exact absurd hmakes (not_makes_of_primitive hexp)
  | @part c next c₁ i path hmakes below ih =>
    cases h' with
    | root =>
      obtain ⟨primitive, -, hexp, -⟩ := draws'
      exact absurd hmakes (not_makes_of_primitive hexp)
    | @part _ next' _ j path' hmakes' below' =>
      rcases Nat.lt_trichotomy i j with hlt | rfl | hlt
      · exact absurd draws' (hmakes.not_both hmakes' hlt typed below draws below')
      · obtain rfl := hmakes.unique hmakes'
        obtain ⟨u, s₁, hnext, -⟩ := hmakes.between typed
        obtain ⟨rfl, hbase⟩ := ih hnext draws below'
        exact ⟨rfl, hbase⟩
      · exact absurd draws (hmakes'.not_both hmakes hlt typed below' draws' below)

/-! ## the variables of a type -/

theorem generates_of_makes (h : c.Makes i next) (generates : next.Generates name) :
    c.Generates name := by
  obtain ⟨path, c', base, below, draws⟩ := generates
  exact ⟨i :: path, c', base, .part h below, draws⟩

theorem generates_of_primitive {primitive : String} (hexp : c.exp = .primitive primitive)
    (typed : c.exp.typeOf c.env c.supply = .ok t s') (hname : name ∈ t.names) :
    c.Generates name := by
  rw [hexp] at typed
  obtain ⟨signature, hsig, hrename⟩ := Exp.typeOf_primitive_eq_ok_iff.mp typed
  obtain ⟨rfl, -⟩ := Prod.mk.inj hrename
  obtain ⟨base, hbase, hname⟩ := Ty.mem_names_substitute.mp hname
  obtain rfl := List.mem_singleton.mp hname
  exact ⟨[], c, base, .root c, primitive, signature, hexp, hsig, hbase, rfl⟩

theorem Yields.origin (h : c.Yields t) (hname : name ∈ t.names) :
    name ∈ c.env.names ∨ name ∈ c.exp.names ∨ name = "literal" ∨ c.Generates name := by
  generalize hexp : c.exp = e at *
  induction e using Exp.partsInduct generalizing c t with
  | step e ih =>
    subst hexp
    obtain ⟨s', typed⟩ := h
    rcases Exp.primitive_or_not c.exp with ⟨primitive, hexp⟩ | hprim
    · exact .inr (.inr (.inr (generates_of_primitive hexp typed hname)))
    · obtain ⟨ts, runs, hrule⟩ := (Exp.typeOf_eq_ok_iff hprim).mp typed
      rcases hrule.names hname with h | h | h | ⟨u, hu, hname⟩
      · exact .inl h
      · exact .inr (.inl h)
      · exact .inr (.inr (.inl h))
      · obtain ⟨i, hi⟩ := List.mem_iff_getElem?.mp hu
        obtain ⟨next, hmakes, hyields⟩ := exists_makes_of_runs runs hi
        have hcheck := List.mem_of_getElem? hmakes.1
        have hpart := Exp.mem_parts_of_mem_checks hcheck
        rcases ih next.exp hpart hyields hname rfl with h | h | h | h
        · exact (Exp.names_env_of_mem_checks hcheck h).imp_right .inl
        · exact .inr (.inl (Exp.names_of_mem_parts hpart h))
        · exact .inr (.inr (.inl h))
        · exact .inr (.inr (.inr (generates_of_makes hmakes h)))

end Call

/-! ## frames -/

namespace Exp

variable {env env' : Env} {frame : Frame} {name : String}

/-- a form that changes the environment puts a frame on top of it -/
theorem eq_or_extend_of_scopeBehind {e : Exp} (h : scopeBehind env e = .ok env') :
    env' = env ∨ ∃ frame, env' = env.extend frame := by
  unfold scopeBehind at h
  split at h
  · rcases Env.combine_extend_eq_ok_iff.mp (Except.mapError_eq_ok_iff.mp h) with ⟨-, rfl⟩ |
      ⟨-, -, rfl⟩
    · exact .inr ⟨_, rfl⟩
    · exact .inr ⟨_, rfl⟩
  · exact .inl (Except.ok.inj h).symm

theorem mem_frames_behind {e : Exp} (h : frame ∈ (behind env e).frames) :
    frame ∈ env.frames ∨ scopeBehind env e = .ok (env.extend frame) := by
  cases hscope : scopeBehind env e with
  | error error =>
    rw [behind, hscope] at h
    exact .inl h
  | ok env' =>
    rw [behind_of_ok hscope] at h
    rcases eq_or_extend_of_scopeBehind hscope with rfl | ⟨frame', rfl⟩
    · exact .inl h
    · rcases List.mem_cons.mp h with rfl | h
      · exact .inr rfl
      · exact .inl h

theorem mem_frames_of_mem_scopes {forms : List Exp} {c : Env × Exp} (h : c ∈ scopes env forms)
    (hframe : frame ∈ c.1.frames) : frame ∈ env.frames ∨
      ∃ p ∈ scopes env forms, scopeBehind p.1 p.2 = .ok (p.1.extend frame) := by
  induction forms generalizing env with
  | nil => exact absurd h List.not_mem_nil
  | cons e rest ih =>
    rcases List.mem_cons.mp h with rfl | h
    · exact .inl hframe
    · rcases ih h with h | ⟨p, hp, hscope⟩
      · exact (mem_frames_behind h).imp_right fun hscope => ⟨(env, e), List.mem_cons_self, hscope⟩
      · exact .inr ⟨p, List.mem_cons_of_mem _ hp, hscope⟩

theorem mem_frames_of_mem_inEnv {es : List Exp} {c : Env × Exp} (h : c ∈ inEnv env es)
    (hframe : frame ∈ c.1.frames) : frame ∈ env.frames :=
  fst_of_mem_inEnv h ▸ hframe

end Exp

namespace Call

open Exp

variable {c c' next : Call} {i : Nat} {t : Ty} {frame : Frame} {name : String}

/-- What is around a part is around the whole, or was put on top by it. -/
theorem mem_frames_of_mem_checks {ts : List Ty} (hrule : Rule c.env c.exp ts t)
    {check : Env × Exp} (hcheck : check ∈ c.exp.checks c.env) (hframe : frame ∈ check.1.frames) :
    frame ∈ c.env.frames ∨ c.Pushes frame := by
  generalize hexp : c.exp = e at hrule hcheck
  cases hrule with
  | number | boolean | string | var | quote => exact absurd hcheck List.not_mem_nil
  | conditional | define | app | cons | car | cdr =>
    exact .inl (mem_frames_of_mem_inEnv hcheck hframe)
  | lambda hparams =>
    rw [checks, hparams] at hcheck
    rcases List.mem_cons.mp (mem_frames_of_mem_inEnv hcheck hframe) with rfl | h
    · exact .inr (.lambda hexp hparams)
    · exact .inl h
  | letIn hbound =>
    rw [checks, hbound] at hcheck
    rcases List.mem_append.mp hcheck with hcheck | hcheck
    · exact .inl (mem_frames_of_mem_inEnv hcheck hframe)
    · rcases List.mem_cons.mp (mem_frames_of_mem_inEnv hcheck hframe) with rfl | h
      · exact .inr (.letIn hexp hbound)
      · exact .inl h
  | letrec hlambdas =>
    rw [checks, hlambdas] at hcheck
    rcases List.mem_cons.mp (mem_frames_of_mem_inEnv hcheck hframe) with rfl | h
    · exact .inr (.letrec hexp hlambdas)
    · exact .inl h
  | program =>
    rcases mem_frames_of_mem_scopes hcheck hframe with h | ⟨⟨env, form⟩, hform, hscope⟩
    · exact .inl h
    · exact .inr (.define hexp hform hscope)

theorem Makes.frames (h : c.Makes i next) (hyields : c.Yields t)
    (hframe : frame ∈ next.env.frames) : frame ∈ c.env.frames ∨ c.Pushes frame := by
  obtain ⟨s', typed⟩ := hyields
  rcases primitive_or_not c.exp with ⟨primitive, hexp⟩ | hprim
  · exact absurd h (not_makes_of_primitive hexp)
  · obtain ⟨ts, -, hrule⟩ := (typeOf_eq_ok_iff hprim).mp typed
    exact mem_frames_of_mem_checks hrule (List.mem_of_getElem? h.1) hframe

theorem Reaches.frames (reach : c.Reaches c') (hyields : c.Yields t)
    (hframe : frame ∈ c'.env.frames) :
    frame ∈ c.env.frames ∨ ∃ c'', c.Reaches c'' ∧ c''.Pushes frame := by
  induction reach generalizing t with
  | refl => exact .inl hframe
  | @step c next c' i hmakes _ ih =>
    obtain ⟨u, hnext⟩ := hmakes.yields hyields
    rcases ih hnext hframe with h | ⟨c'', reach, hpushes⟩
    · exact (hmakes.frames hyields h).imp_right fun hpushes => ⟨c, .refl c, hpushes⟩
    · exact .inr ⟨c'', .step hmakes reach, hpushes⟩

/-- The types of a frame are written in the annotations, or were around the forms of a program. -/
theorem Pushes.names (h : c.Pushes frame) (hname : name ∈ frame.names) :
    name ∈ c.env.names ∨ name ∈ c.exp.names := by
  cases h with
  | lambda hexp hframe =>
    rw [hexp]
    exact .inr (List.mem_append_left _ (List.mem_append_left _ (names_frame? hframe hname)))
  | letIn hexp hframe =>
    rw [hexp]
    exact .inr (List.mem_append_left _ (names_boundFrame? hframe hname))
  | letrec hexp hframe =>
    rw [hexp]
    exact .inr (List.mem_append_left _ (names_lambdaFrame? hframe hname))
  | @define forms env form hexp hform hframe =>
    rw [hexp]
    have hbehind : name ∈ (behind env form).names := by
      rw [behind_of_ok hframe, Env.names_extend]
      exact List.mem_append_left _ hname
    rcases names_behind hbehind with h | h
    · exact names_env_of_mem_scopes hform h
    · exact .inr (mem_namesAll.mpr ⟨form, map_snd_scopes c.env forms ▸ List.mem_map_of_mem hform, h⟩)

/-! ## covered calls -/

theorem Reaches.reserved (reach : c.Reaches c') : c'.supply.reserved = c.supply.reserved := by
  induction reach with
  | refl => rfl
  | step hmakes _ ih => exact ih.trans hmakes.reserved

theorem Generates.drawn {s' : Supply} (h : c.Generates name)
    (typed : c.exp.typeOf c.env c.supply = .ok t s') : Drawn c.supply s' name := by
  obtain ⟨path, c', base, below, draws⟩ := h
  exact below.drawn draws typed

/-- In a covered call, no frame has a type with a drawn name. -/
theorem Covered.not_mem_names_of_pushes {s' : Supply} (h : c.Covered) (reach : c.Reaches c')
    (hpushes : c'.Pushes frame) (drawn : Drawn c.supply s' name) : name ∉ frame.names := by
  intro hname
  have hreserved := h.reaches reach name (hpushes.names hname)
  rw [reach.reserved] at hreserved
  exact drawn.1 hreserved

end Call

/-- Where the type variables of a result come from. Each stands in the annotations or in the
environment, is `literal`, or was generated: drawn by a reference to a primitive. What is generated
is none of the others, and each name for one variable of the signature at one reference only. All
frames around the expressions in between are those of the environment, or were put there by a
lambda, a let, a letrec or a definition, and these have no generated names in their types. -/
theorem origin_of_names {env : Env} {e : Exp} {t : Ty} (typed : e.typeIn env = .ok t) :
    (∀ name ∈ t.names, name ∈ e.names ∨ name ∈ env.names ∨ name = "literal" ∨
      (Call.start env e).Generates name) ∧
    (∀ name, (Call.start env e).Generates name →
      name ∉ e.names ∧ name ∉ env.names ∧ name ≠ "literal") ∧
    (∀ path path' c c' base base' name, (Call.start env e).At path c → c.Draws base name →
      (Call.start env e).At path' c' → c'.Draws base' name → path = path' ∧ base = base') ∧
    (∀ c frame, (Call.start env e).Reaches c → c.Pushes frame →
      ∀ name, (Call.start env e).Generates name → name ∉ frame.names) ∧
    ∀ c, (Call.start env e).Reaches c → ∀ frame ∈ c.env.frames,
      frame ∈ env.frames ∨ ∃ c', (Call.start env e).Reaches c' ∧ c'.Pushes frame := by
  have hyields := Call.start_yields_iff.mpr typed
  have covered := Call.covered_start env e
  obtain ⟨s', hchecked⟩ := hyields
  refine ⟨fun name hname => ?_, fun name generates => ?_, ?_, ?_, ?_⟩
  · exact or_left_comm.mp (Call.Yields.origin ⟨s', hchecked⟩ hname)
  · have drawn := generates.drawn hchecked
    have hfree : name ∉ e.names ++ env.names := drawn.1
    rw [List.mem_append, not_or] at hfree
    exact ⟨hfree.1, hfree.2, drawn.ne_literal⟩
  · intro path path' c c' base base' name below draws below' draws'
    exact Call.At.unique_of_draws hchecked below draws below' draws'
  · intro c frame reach hpushes name generates
    exact covered.not_mem_names_of_pushes reach hpushes (generates.drawn hchecked)
  · intro c reach frame hframe
    exact reach.frames ⟨s', hchecked⟩ hframe

/-- `(let (((f : (T -> T)) (lambda ((x : T)) : T x))) (cons number? (cons eq? f)))` -/
def predicatesAndIdentity : Exp :=
  .letIn [.binding (.decl "f" (.proc [.var "T"] (.var "T")))
      (.lambda [.decl "x" (.var "T")] (.var "T") [.var "x"])]
    [.app (.primitive "cons") [.primitive "number?",
      .app (.primitive "cons") [.primitive "eq?", .var "f"]]]

/-- `T` is annotated, and `T_1` stands in the environment; the other names have been drawn. -/
theorem origin_of_predicatesAndIdentity :
    predicatesAndIdentity.typeIn ⟨[[("y", .var "T_1")]]⟩ =
        .ok (.pair (.proc [.var "T_2"] .boolean)
          (.pair (.proc [.var "T1_3", .var "T2_4"] .boolean) (.proc [.var "T"] (.var "T")))) ∧
      ∀ name ∈ ["T_2", "T1_3", "T2_4"],
        (Call.start ⟨[[("y", .var "T_1")]]⟩ predicatesAndIdentity).Generates name := by
  have typed : predicatesAndIdentity.typeIn ⟨[[("y", .var "T_1")]]⟩ =
      .ok (.pair (.proc [.var "T_2"] .boolean)
        (.pair (.proc [.var "T1_3", .var "T2_4"] .boolean) (.proc [.var "T"] (.var "T")))) :=
    Except.toOption_eq_some_iff.mp (by decide +kernel)
  refine ⟨typed, fun name hname => ?_⟩
  obtain ⟨horigin, -⟩ := origin_of_names typed
  have hall : ∀ name ∈ ["T_2", "T1_3", "T2_4"], name ∉ predicatesAndIdentity.names ∧
      name ∉ Env.names ⟨[[("y", .var "T_1")]]⟩ ∧ name ≠ "literal" := by decide
  obtain ⟨hwritten, henv, hliteral⟩ := hall name hname
  have hmem : ∀ name ∈ ["T_2", "T1_3", "T2_4"], name ∈ (Ty.pair (.proc [.var "T_2"] .boolean)
      (.pair (.proc [.var "T1_3", .var "T2_4"] .boolean)
        (.proc [.var "T"] (.var "T")))).names := by decide
  exact (((horigin name (hmem name hname)).resolve_left hwritten).resolve_left
    henv).resolve_left hliteral

end AnnotatedScheme
