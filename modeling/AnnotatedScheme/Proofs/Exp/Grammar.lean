import AnnotatedScheme.Proofs.Exp.Shape
import AnnotatedScheme.Proofs.Lists

/-!
# The grammar

Which trees data stand for, as derivations. `Value.Derives d v` says that the quoted datum `d` is
the value `v`, and `Exp.Derives c d e` that `d` is the tree `e` of the category `c`. The functions
that build trees find exactly the derived ones (`Value.ofDatum_eq_ok_iff`, `Exp.read_eq_ok_iff`).

The items of a list are derived one by one, so a list comes as pairs of data and trees.
-/

namespace AnnotatedScheme

/-! ## quoted values -/

inductive Value.Derives : Datum → Value → Prop
  | atom {value : Atom} (h : value ≠ .symbol ".") : Derives (.atom value) (.atom value)
  | gap : Derives .gap .gap
  | empty : Derives (.list []) .empty
  | tail {d : Datum} {v : Value} (h : Derives d v) : Derives (.list [.dot, d]) v.asTail
  | cell {d : Datum} {rest : List Datum} {first second : Value} (hfirst : Derives d first)
      (hsecond : Derives (.list rest) second) : Derives (.list (d :: rest)) (.cell first second)

namespace Value

theorem derives_of_ofItems {items : List Datum}
    (each : ∀ d ∈ items, ∀ v, ofDatum d = .ok v → Derives d v) {v : Value}
    (h : ofItems items = .ok v) : Derives (.list items) v := by
  induction items generalizing v with
  | nil =>
    obtain rfl := Except.ok.inj h
    exact .empty
  | cons d rest ih =>
    unfold ofItems at h
    split at h
    · rename_i last hdot
      obtain rfl := Datum.isSymbol_iff.mp hdot
      cases hlast : ofDatum last with
      | error e =>
        rw [hlast] at h
        cases h
      | ok u =>
        rw [hlast] at h
        obtain rfl := Except.ok.inj h
        exact .tail (each last (by simp) u hlast)
    · simp only [Except.bind_eq_ok_iff, Except.pure_eq_ok_iff] at h
      obtain ⟨first, hfirst, second, hsecond, rfl⟩ := h
      have hrest := ih (fun d hd => each d (List.mem_cons_of_mem _ hd)) hsecond
      exact .cell (each d List.mem_cons_self first hfirst) hrest

theorem Derives.ofDatum {d : Datum} {v : Value} (h : Derives d v) : ofDatum d = .ok v := by
  induction h with
  | @atom value h =>
    have hdot : Datum.isDot (.atom value) = false := by
      refine Bool.eq_false_iff.mpr fun hdot => h ?_
      exact Datum.atom.inj (Datum.isSymbol_iff.mp hdot)
    rw [Value.ofDatum, hdot]
    rfl
  | gap => rfl
  | empty => rfl
  | tail h ih =>
    show (Value.ofDatum _).map asTail = _
    rw [ih]
    rfl
  | @cell d rest first second hfirst hsecond ihf ihs =>
    have hrest : ofItems rest = .ok second := ihs
    rw [Value.ofDatum, ofItems.eq_def]
    dsimp only
    split
    · -- a dot is no value
      rename_i hdot
      obtain rfl := Datum.isSymbol_iff.mp hdot
      cases ihf
    · rw [ihf, hrest]
      rfl

theorem ofDatum_eq_ok_iff {d : Datum} {v : Value} : ofDatum d = .ok v ↔ Derives d v := by
  refine ⟨fun h => ?_, Derives.ofDatum⟩
  induction d using Datum.induct generalizing v with
  | atom value =>
    rw [ofDatum] at h
    split at h
    · cases h
    · rename_i hdot
      obtain rfl := Except.ok.inj h
      refine .atom fun heq => hdot ?_
      rw [heq]
      rfl
  | list items ih => exact derives_of_ofItems (fun d hd v => ih d hd) h
  | gap =>
    obtain rfl := Except.ok.inj h
    exact .gap

end Value

/-! ## expressions, forms and programs -/

namespace Exp

/-- the kinds of trees in the grammar -/
inductive Category
  | declaration
  | binding
  | expression
  | form
  | program

inductive Derives : Category → Datum → Exp → Prop
  | decl {x : String} {type : Datum} {t : Ty} (hx : isVariableName x = true)
      (ht : Ty.ofDatum type = .ok t) :
      Derives .declaration (.list [.symbol x, .symbol ":", type]) (.decl x t)
  | binding {decl value : Datum} {d v : Exp} (hdecl : Derives .declaration decl d)
      (hvalue : Derives .expression value v) : Derives .binding (.list [decl, value]) (.binding d v)
  | number (value : Number) : Derives .expression (.atom (.number value)) (.number value)
  | boolean (value : Bool) : Derives .expression (.atom (.boolean value)) (.boolean value)
  | string (content : String) : Derives .expression (.atom (.string content)) (.string content)
  | primitive {name : String} (h : name ∈ primitiveNames) :
      Derives .expression (.symbol name) (.primitive name)
  | var {name : String} (h : isVariableName name = true) :
      Derives .expression (.symbol name) (.var name)
  | conditional {test consequent alternative : Datum} {t c a : Exp}
      (htest : Derives .expression test t) (hconsequent : Derives .expression consequent c)
      (halternative : Derives .expression alternative a) :
      Derives .expression (.list [.symbol "if", test, consequent, alternative]) (.conditional t c a)
  | lambda {params body : List (Datum × Exp)} {result : Datum} {t : Ty}
      (hparams : ∀ p ∈ params, Derives .declaration p.1 p.2) (hresult : Ty.ofDatum result = .ok t)
      (nonempty : body ≠ []) (hbody : ∀ p ∈ body, Derives .expression p.1 p.2) :
      Derives .expression
        (.list (.symbol "lambda" :: .list (params.map Prod.fst) :: .symbol ":" :: result ::
          body.map Prod.fst))
        (.lambda (params.map Prod.snd) t (body.map Prod.snd))
  | app {operator : Datum} {f : Exp} {operands : List (Datum × Exp)}
      (hoperator : Derives .expression operator f)
      (hoperands : ∀ p ∈ operands, Derives .expression p.1 p.2) :
      Derives .expression (.list (operator :: operands.map Prod.fst))
        (.app f (operands.map Prod.snd))
  | letIn {bindings body : List (Datum × Exp)}
      (hbindings : ∀ p ∈ bindings, Derives .binding p.1 p.2) (nonempty : body ≠ [])
      (hbody : ∀ p ∈ body, Derives .expression p.1 p.2) :
      Derives .expression
        (.list (.symbol "let" :: .list (bindings.map Prod.fst) :: body.map Prod.fst))
        (.letIn (bindings.map Prod.snd) (body.map Prod.snd))
  | letrec {bindings body : List (Datum × Exp)}
      (hbindings : ∀ p ∈ bindings, Derives .binding p.1 p.2) (nonempty : body ≠ [])
      (hbody : ∀ p ∈ body, Derives .expression p.1 p.2) :
      Derives .expression
        (.list (.symbol "letrec" :: .list (bindings.map Prod.fst) :: body.map Prod.fst))
        (.letrec (bindings.map Prod.snd) (body.map Prod.snd))
  | quote {d : Datum} {v : Value} (h : Value.Derives d v) :
      Derives .expression (.quote d) (.quote v)
  | expression {d : Datum} {e : Exp} (h : Derives .expression d e) : Derives .form d e
  | define {decl value : Datum} {d v : Exp} (hdecl : Derives .declaration decl d)
      (hvalue : Derives .expression value v) :
      Derives .form (.list [.symbol "define", decl, value]) (.define d v)
  | program {forms : List (Datum × Exp)} (nonempty : forms ≠ [])
      (hforms : ∀ p ∈ forms, Derives .form p.1 p.2) :
      Derives .program (.list (.symbol "L5" :: forms.map Prod.fst)) (.program (forms.map Prod.snd))

/-! ### the builder, part by part -/

def ofBinding : Datum → Except FormError Exp
  | .list [d, value] => return .binding (← ofDecl d) (← ofDatum value)
  | d => .error ⟨.binding, d⟩

theorem ofBindings_eq_mapM (ds : List Datum) : ofBindings ds = ds.mapM ofBinding := by
  induction ds with
  | nil => rfl
  | cons d rest ih =>
    rw [List.mapM_cons, ← ih, ofBindings.eq_def, ofBinding.eq_def]
    split
    · cases ‹_ = []›
    · rename_i decl value tail heq
      obtain ⟨rfl, rfl⟩ := List.cons.inj heq
      simp only [bind_assoc, pure_bind]
    · rename_i hne heq
      obtain ⟨rfl, rfl⟩ := List.cons.inj heq
      split
      · exact absurd rfl (hne _ _)
      · rfl

theorem ofEach_eq_mapM (ds : List Datum) : ofEach ds = ds.mapM ofDatum := by
  induction ds with
  | nil => rfl
  | cons d rest ih => rw [ofEach, ih, List.mapM_cons]

theorem ofBody_cons (whole d : Datum) (rest : List Datum) :
    ofBody whole (d :: rest) = (d :: rest).mapM ofDatum := ofEach_eq_mapM (d :: rest)

theorem ofBody_eq_ok_iff {whole : Datum} {ds : List Datum} {es : List Exp} :
    ofBody whole ds = .ok es ↔ ds ≠ [] ∧ ds.mapM ofDatum = .ok es := by
  cases ds with
  | nil => exact iff_of_false nofun fun h => h.1 rfl
  | cons d rest =>
    rw [ofBody_cons]
    exact (and_iff_right (List.cons_ne_nil _ _)).symm

/-- what the builder makes of data of each category -/
def Category.read : Category → Datum → Except FormError Exp
  | .declaration => ofDecl
  | .binding => ofBinding
  | .expression => ofDatum
  | .form => ofForm
  | .program => ofProgram

/-! ### what is derived is built -/

theorem isVariableName_iff {name : String} :
    isVariableName name = true ↔ name ∉ primitiveNames ∧ name ∉ keywords ∧ name ≠ "." := by
  simp [isVariableName, and_assoc]

/-- A list whose head is no keyword is an application. -/
theorem ofDatum_app {operator : Datum} {operands : List Datum}
    (h : ∀ name ∈ keywords, operator ≠ .symbol name) :
    ofDatum (.list (operator :: operands)) =
      do return .app (← ofDatum operator) (← operands.mapM ofDatum) := by
  have hhead : ∀ name ∈ keywords, operator.isSymbol name = false := fun name hname =>
    Bool.eq_false_iff.mpr fun heq => h name hname (Datum.isSymbol_iff.mp heq)
  rw [ofDatum, hhead "define" (by decide), hhead "if" (by decide), hhead "lambda" (by decide),
    hhead "let" (by decide), hhead "letrec" (by decide), hhead "quote" (by decide), ofEach_eq_mapM]
  rfl

theorem ofDecl_eq_ok_iff {d : Datum} {e : Exp} :
    ofDecl d = .ok e ↔ Derives .declaration d e := by
  refine ⟨fun h => ?_, fun h => ?_⟩
  · unfold ofDecl at h
    split at h
    · rename_i x colon type
      split at h
      · rename_i name hx hcolon
        split at h
        · rename_i hname
          obtain ⟨t, ht, h⟩ := Except.bind_eq_ok_iff.mp h
          obtain rfl := Except.pure_eq_ok_iff.mp h
          obtain rfl := Datum.isSymbol_iff.mp hcolon
          have hname' : x.isSymbol name = true := decide_eq_true hx
          obtain rfl := Datum.isSymbol_iff.mp hname'
          exact .decl hname ht
        · cases h
      · cases h
    · cases h
  · cases h with
    | @decl x type t hx ht =>
      show (if isVariableName x = true then _ else _) = _
      rw [if_pos hx, ht]
      rfl

theorem Derives.ne_keyword {d : Datum} {e : Exp} (h : Derives .expression d e) :
    ∀ name ∈ keywords, d ≠ .symbol name := by
  rintro name hname rfl
  cases h with
  | primitive h =>
    revert name
    decide
  | var h => exact (isVariableName_iff.mp h).2.1 hname

/-- Lists of derived data are read item by item. -/
theorem mapM_map_fst {c : Category} {ps : List (Datum × Exp)}
    (h : ∀ p ∈ ps, c.read p.1 = .ok p.2) :
    (ps.map Prod.fst).mapM c.read = .ok (ps.map Prod.snd) :=
  mapM_eq_ok_iff_pairs.mpr ⟨ps, rfl, rfl, h⟩

theorem Derives.read {c : Category} {d : Datum} {e : Exp} (h : Derives c d e) :
    c.read d = .ok e := by
  induction h with
  | decl hx ht => exact ofDecl_eq_ok_iff.mpr (.decl hx ht)
  | binding _ _ ihd ihv =>
    refine Except.bind_eq_ok_iff.mpr ⟨_, ihd, ?_⟩
    exact Except.bind_eq_ok_iff.mpr ⟨_, ihv, rfl⟩
  | number | boolean | string => rfl
  | @primitive name h =>
    show ofAtom (.symbol name) = _
    rw [ofAtom, if_pos (List.contains_iff_mem.mpr h)]
  | @var name h =>
    show ofAtom (.symbol name) = _
    rw [ofAtom, if_neg (mt List.contains_iff_mem.mp (isVariableName_iff.mp h).1), if_pos h]
  | conditional _ _ _ iht ihc iha =>
    refine Except.bind_eq_ok_iff.mpr ⟨_, iht, ?_⟩
    refine Except.bind_eq_ok_iff.mpr ⟨_, ihc, ?_⟩
    exact Except.bind_eq_ok_iff.mpr ⟨_, iha, rfl⟩
  | @lambda params body result t _ hresult nonempty _ ihp ihb =>
    refine Except.bind_eq_ok_iff.mpr ⟨_, mapM_map_fst ihp, ?_⟩
    refine Except.bind_eq_ok_iff.mpr ⟨_, hresult, ?_⟩
    refine Except.bind_eq_ok_iff.mpr ⟨_, ofBody_eq_ok_iff.mpr ⟨?_, mapM_map_fst ihb⟩, rfl⟩
    exact mt List.map_eq_nil_iff.mp nonempty
  | app hoperator _ iho ihs =>
    show ofDatum _ = _
    rw [ofDatum_app hoperator.ne_keyword]
    refine Except.bind_eq_ok_iff.mpr ⟨_, iho, ?_⟩
    exact Except.bind_eq_ok_iff.mpr ⟨_, mapM_map_fst ihs, rfl⟩
  | letIn _ nonempty _ ihs ihb | letrec _ nonempty _ ihs ihb =>
    refine Except.bind_eq_ok_iff.mpr ⟨_, (ofBindings_eq_mapM _).trans (mapM_map_fst ihs), ?_⟩
    refine Except.bind_eq_ok_iff.mpr ⟨_, ofBody_eq_ok_iff.mpr ⟨?_, mapM_map_fst ihb⟩, rfl⟩
    exact mt List.map_eq_nil_iff.mp nonempty
  | quote h =>
    show Exp.quote <$> Value.ofDatum _ = _
    rw [h.ofDatum]
    rfl
  | @expression d e h ih =>
    have hbuilt : ofDatum d = .ok e := ih
    show ofForm d = _
    unfold ofForm
    split
    · split
      · -- no expression begins with `define`
        rename_i hdefine
        obtain rfl := Datum.isSymbol_iff.mp hdefine
        cases hbuilt
      · exact hbuilt
    · exact hbuilt
  | define _ _ ihd ihv =>
    refine Except.bind_eq_ok_iff.mpr ⟨_, ihd, ?_⟩
    exact Except.bind_eq_ok_iff.mpr ⟨_, ihv, rfl⟩
  | @program forms nonempty _ ih =>
    have hforms : (forms.map Prod.fst).isEmpty = false := by
      rw [List.isEmpty_eq_false_iff]
      exact mt List.map_eq_nil_iff.mp nonempty
    show ofProgram (.list (.symbol "L5" :: forms.map Prod.fst)) = _
    rw [ofProgram, hforms]
    exact Except.bind_eq_ok_iff.mpr ⟨_, mapM_map_fst ih, rfl⟩

/-! ### what is built is derived -/

theorem derives_of_ofAtom {value : Atom} {e : Exp} (h : ofAtom value = .ok e) :
    Derives .expression (.atom value) e := by
  cases value with
  | number value =>
    obtain rfl := Except.ok.inj h
    exact .number value
  | boolean value =>
    obtain rfl := Except.ok.inj h
    exact .boolean value
  | string content =>
    obtain rfl := Except.ok.inj h
    exact .string content
  | symbol name =>
    rw [ofAtom] at h
    split at h
    · rename_i hname
      obtain rfl := Except.ok.inj h
      exact .primitive (List.contains_iff_mem.mp hname)
    split at h
    · rename_i hname
      obtain rfl := Except.ok.inj h
      exact .var hname
    · cases h

theorem exists_pairs_of_mapM {c : Category} {ds : List Datum}
    (each : ∀ d ∈ ds, ∀ e, c.read d = .ok e → Derives c d e) {es : List Exp}
    (h : ds.mapM c.read = .ok es) :
    ∃ ps : List (Datum × Exp), ds = ps.map Prod.fst ∧ es = ps.map Prod.snd ∧
      ∀ p ∈ ps, Derives c p.1 p.2 := by
  obtain ⟨ps, rfl, rfl, hps⟩ := mapM_eq_ok_iff_pairs.mp h
  exact ⟨ps, rfl, rfl, fun p hp => each p.1 (List.mem_map_of_mem hp) p.2 (hps p hp)⟩

theorem derives_of_ofBinding {d : Datum}
    (each : ∀ part : Datum, part.Within d → ∀ e, ofDatum part = .ok e →
      Derives .expression part e)
    {e : Exp} (h : ofBinding d = .ok e) : Derives .binding d e := by
  unfold ofBinding at h
  split at h
  · simp only [Except.bind_eq_ok_iff, Except.pure_eq_ok_iff] at h
    obtain ⟨decl, hdecl, v, hv, rfl⟩ := h
    refine .binding (ofDecl_eq_ok_iff.mp hdecl) ?_
    exact each _ (Datum.within_of_mem (by simp)) v hv
  · cases h

section

variable {whole : Datum} {ds : List Datum}
  (each : ∀ d ∈ ds, ∀ part, part.Within d → ∀ e, ofDatum part = .ok e → Derives .expression part e)
include each

theorem exists_pairs_of_ofBody {es : List Exp} (h : ofBody whole ds = .ok es) :
    ∃ ps : List (Datum × Exp), ds = ps.map Prod.fst ∧ es = ps.map Prod.snd ∧ ps ≠ [] ∧
      ∀ p ∈ ps, Derives .expression p.1 p.2 := by
  obtain ⟨nonempty, hmap⟩ := ofBody_eq_ok_iff.mp h
  obtain ⟨ps, rfl, rfl, hps⟩ :=
    exists_pairs_of_mapM (c := .expression) (fun d hd => each d hd d .refl) hmap
  exact ⟨ps, rfl, rfl, mt List.map_eq_nil_iff.mpr nonempty, hps⟩

theorem exists_pairs_of_ofBindings {es : List Exp} (h : ofBindings ds = .ok es) :
    ∃ ps : List (Datum × Exp), ds = ps.map Prod.fst ∧ es = ps.map Prod.snd ∧
      ∀ p ∈ ps, Derives .binding p.1 p.2 := by
  rw [ofBindings_eq_mapM] at h
  exact exists_pairs_of_mapM (c := .binding) (fun b hb e => derives_of_ofBinding (each b hb)) h

theorem derives_of_ofConditional {e : Exp} (h : ofConditional whole ds = .ok e) :
    Derives .expression (.list (.symbol "if" :: ds)) e := by
  unfold ofConditional at h
  split at h
  · simp only [Except.bind_eq_ok_iff, Except.pure_eq_ok_iff] at h
    obtain ⟨test, htest, consequent, hconsequent, alternative, halternative, rfl⟩ := h
    exact .conditional (each _ (by simp) _ .refl _ htest)
      (each _ (by simp) _ .refl _ hconsequent) (each _ (by simp) _ .refl _ halternative)
  · cases h

theorem derives_of_ofLambda {e : Exp} (h : ofLambda whole ds = .ok e) :
    Derives .expression (.list (.symbol "lambda" :: ds)) e := by
  unfold ofLambda at h
  split at h
  · rename_i params colon result body
    split at h
    · rename_i hcolon
      simp only [Except.bind_eq_ok_iff, Except.pure_eq_ok_iff] at h
      obtain ⟨ps, hparams, t, hresult, es, hbody, rfl⟩ := h
      obtain rfl := Datum.isSymbol_iff.mp hcolon
      obtain ⟨ps, rfl, rfl, hps⟩ := exists_pairs_of_mapM (c := .declaration)
        (fun d _ e => ofDecl_eq_ok_iff.mp) hparams
      obtain ⟨bs, rfl, rfl, nonempty, hbs⟩ :=
        exists_pairs_of_ofBody (fun d hd => each d (by simp [hd])) hbody
      exact .lambda hps hresult nonempty hbs
    · cases h
  · cases h

theorem derives_of_ofScope {form : Form} {keyword : String} {scope : List Exp → List Exp → Exp}
    (hscope : ∀ {bindings body : List (Datum × Exp)},
      (∀ p ∈ bindings, Derives .binding p.1 p.2) → body ≠ [] →
      (∀ p ∈ body, Derives .expression p.1 p.2) →
      Derives .expression
        (.list (.symbol keyword :: .list (bindings.map Prod.fst) :: body.map Prod.fst))
        (scope (bindings.map Prod.snd) (body.map Prod.snd)))
    {e : Exp} (h : ofScope form scope whole ds = .ok e) :
    Derives .expression (.list (.symbol keyword :: ds)) e := by
  unfold ofScope at h
  split at h
  · rename_i bindings body
    simp only [Except.bind_eq_ok_iff, Except.pure_eq_ok_iff] at h
    obtain ⟨bs, hbindings, es, hbody, rfl⟩ := h
    obtain ⟨ps, rfl, rfl, hps⟩ := exists_pairs_of_ofBindings
      (fun b hb part hpart => each (.list bindings) List.mem_cons_self part (.item hb hpart))
      hbindings
    obtain ⟨bs, rfl, rfl, nonempty, hbs⟩ :=
      exists_pairs_of_ofBody (fun d hd => each d (List.mem_cons_of_mem _ hd)) hbody
    exact hscope hps nonempty hbs
  · cases h

end

theorem derives_of_ofQuoted {whole : Datum} {ds : List Datum} {e : Exp}
    (h : ofQuoted whole ds = .ok e) : Derives .expression (.list (.symbol "quote" :: ds)) e := by
  unfold ofQuoted at h
  split at h
  · rename_i d
    cases hv : Value.ofDatum d with
    | error error =>
      rw [hv] at h
      cases h
    | ok v =>
      rw [hv] at h
      obtain rfl := Except.ok.inj h
      exact .quote (Value.ofDatum_eq_ok_iff.mp hv)
  · cases h

theorem derives_of_ofDatum (d : Datum) :
    ∀ e, ofDatum d = .ok e → Derives .expression d e := by
  induction d using Datum.deepInduct with
  | atom value => exact fun e => derives_of_ofAtom
  | gap => exact nofun
  | list items ih =>
    intro e h
    cases items with
    | nil => cases h
    | cons head rest =>
      have each : ∀ d ∈ rest, ∀ part, part.Within d → ∀ e, ofDatum part = .ok e →
          Derives .expression part e := fun d hd => ih d (List.mem_cons_of_mem _ hd)
      rw [ofDatum] at h
      split at h
      · cases h
      split at h
      · rename_i hhead
        obtain rfl := Datum.isSymbol_iff.mp hhead
        exact derives_of_ofConditional each h
      split at h
      · rename_i hhead
        obtain rfl := Datum.isSymbol_iff.mp hhead
        exact derives_of_ofLambda each h
      split at h
      · rename_i hhead
        obtain rfl := Datum.isSymbol_iff.mp hhead
        exact derives_of_ofScope each .letIn h
      split at h
      · rename_i hhead
        obtain rfl := Datum.isSymbol_iff.mp hhead
        exact derives_of_ofScope each .letrec h
      split at h
      · rename_i hhead
        obtain rfl := Datum.isSymbol_iff.mp hhead
        exact derives_of_ofQuoted h
      · simp only [Except.bind_eq_ok_iff, Except.pure_eq_ok_iff] at h
        obtain ⟨operator, hoperator, operands, hoperands, rfl⟩ := h
        rw [ofEach_eq_mapM] at hoperands
        obtain ⟨ps, rfl, rfl, hps⟩ :=
          exists_pairs_of_mapM (c := .expression) (fun d hd => each d hd d .refl) hoperands
        exact .app (ih head List.mem_cons_self head .refl _ hoperator) hps

theorem derives_of_ofForm {d : Datum} {e : Exp} (h : ofForm d = .ok e) : Derives .form d e := by
  unfold ofForm at h
  split at h
  · rename_i head rest
    split at h
    · rename_i hhead
      obtain rfl := Datum.isSymbol_iff.mp hhead
      unfold ofDefine at h
      split at h
      · simp only [Except.bind_eq_ok_iff, Except.pure_eq_ok_iff] at h
        obtain ⟨decl, hdecl, v, hv, rfl⟩ := h
        exact .define (ofDecl_eq_ok_iff.mp hdecl) (derives_of_ofDatum _ v hv)
      · cases h
    · exact .expression (derives_of_ofDatum _ e h)
  · exact .expression (derives_of_ofDatum d e h)

theorem derives_of_ofProgram {d : Datum} {e : Exp} (h : ofProgram d = .ok e) :
    Derives .program d e := by
  unfold ofProgram at h
  split at h
  · rename_i head forms
    split at h
    · cases h
    rename_i hhead
    split at h
    · cases h
    · rename_i hforms
      simp only [Except.bind_eq_ok_iff, Except.pure_eq_ok_iff] at h
      obtain ⟨es, hmap, rfl⟩ := h
      obtain ⟨ps, rfl, rfl, hps⟩ := exists_pairs_of_mapM (c := .form)
        (fun d _ e => derives_of_ofForm) hmap
      obtain rfl := Datum.isSymbol_iff.mp (by simpa using hhead)
      refine .program (fun hnil => hforms ?_) hps
      rw [hnil]
      rfl
  · cases h

/-- The builder makes a tree of a datum if and only if the grammar derives it. -/
theorem read_eq_ok_iff {c : Category} {d : Datum} {e : Exp} : c.read d = .ok e ↔ Derives c d e := by
  refine ⟨fun h => ?_, Derives.read⟩
  cases c with
  | declaration => exact ofDecl_eq_ok_iff.mp h
  | binding => exact derives_of_ofBinding (fun part _ => derives_of_ofDatum part) h
  | expression => exact derives_of_ofDatum d e h
  | form => exact derives_of_ofForm h
  | program => exact derives_of_ofProgram h

/-- What holds of the items of a list goes from the data behind the front to their trees. -/
theorem forall_snd_of_items {P : Datum → Prop} {R : Exp → Prop} (front : List Datum)
    {ps : List (Datum × Exp)} (hitems : ∀ d ∈ front ++ ps.map Prod.fst, P d)
    (h : ∀ p ∈ ps, P p.1 → R p.2) : ∀ e ∈ ps.map Prod.snd, R e :=
  List.forall_mem_map.mpr fun p hp =>
    h p hp (hitems p.1 (List.mem_append_right front (List.mem_map_of_mem hp)))

/-! ### source texts -/

/-- what the tree of a text has to be -/
def Kind.category : Kind → Category
  | .form => .form
  | .program => .program

theorem ofText_eq_ok_iff {kind : Kind} {text : String} {e : Exp} :
    ofText kind text = .ok e ↔ ∃ d, Datum.read text = .ok d ∧ Derives kind.category d e := by
  unfold ofText
  cases hread : Datum.read text with
  | error error => exact iff_of_false nofun nofun
  | ok d =>
    have hone : (∃ d', Except.ok d = (.ok d' : Except (Unread ReadError) Datum) ∧
        Derives kind.category d' e) ↔ Derives kind.category d e := by simp
    rw [hone, ← read_eq_ok_iff]
    cases kind <;> exact Except.mapError_eq_ok_iff

end Exp

end AnnotatedScheme
