import AnnotatedScheme.Proofs.Exp.Fault
import AnnotatedScheme.Proofs.Exp.Nodes
import AnnotatedScheme.Proofs.Value.Dots

/-!
# Derivations

`Exp.Derivation c d` are the derivations of a datum `d` from a category `c` of the grammar, with one
constructor for each production, and `Exp.Derivations c ds` those of the items of a list.

* `Derivation.exp`              the tree that a derivation determines;
* `read_eq_ok_iff_derivation`   the trees that are built are those of derivations;
* `Derivation.unique`           a datum has one derivation at most: no two productions meet, because
                                a keyword is no operator, and `define` begins no expression;
* `Derives.define_at_top`       among the nodes of a tree (`Exp.NodeOf`), a definition is the root
                                or a form of the program that is the root;
* `Derives.body_ne_nil`         no body is empty.
-/

namespace AnnotatedScheme.Exp

mutual
inductive Derivation : Category → Datum → Type
  | decl {x : String} {type : Datum} {t : Ty} (hx : x ∉ primitiveNames ∧ x ∉ keywords ∧ x ≠ ".")
      (ht : Ty.ofDatum type = .ok t) :
      Derivation .declaration (.list [.symbol x, .symbol ":", type])
  | binding {decl value : Datum} (d : Derivation .declaration decl)
      (v : Derivation .expression value) : Derivation .binding (.list [decl, value])
  | number (value : Number) : Derivation .expression (.atom (.number value))
  | boolean (value : Bool) : Derivation .expression (.atom (.boolean value))
  | string (content : String) : Derivation .expression (.atom (.string content))
  | primitive {name : String} (h : name ∈ primitiveNames) : Derivation .expression (.symbol name)
  | var {name : String} (h : name ∉ primitiveNames ∧ name ∉ keywords ∧ name ≠ ".") :
      Derivation .expression (.symbol name)
  | conditional {test consequent alternative : Datum} (t : Derivation .expression test)
      (c : Derivation .expression consequent) (a : Derivation .expression alternative) :
      Derivation .expression (.list [.symbol "if", test, consequent, alternative])
  | lambda {params body : List Datum} {result first : Datum} {t : Ty}
      (ps : Derivations .declaration params) (ht : Ty.ofDatum result = .ok t)
      (e : Derivation .expression first) (es : Derivations .expression body) :
      Derivation .expression
        (.list (.symbol "lambda" :: .list params :: .symbol ":" :: result :: first :: body))
  | letIn {bindings body : List Datum} {first : Datum} (bs : Derivations .binding bindings)
      (e : Derivation .expression first) (es : Derivations .expression body) :
      Derivation .expression (.list (.symbol "let" :: .list bindings :: first :: body))
  | letrec {bindings body : List Datum} {first : Datum} (bs : Derivations .binding bindings)
      (e : Derivation .expression first) (es : Derivations .expression body) :
      Derivation .expression (.list (.symbol "letrec" :: .list bindings :: first :: body))
  | quote {d : Datum} {v : Value} (hdots : d.DotsInPlace) (h : Value.Derives d v) :
      Derivation .expression (.quote d)
  | app {operator : Datum} {operands : List Datum} (f : Derivation .expression operator)
      (es : Derivations .expression operands) :
      Derivation .expression (.list (operator :: operands))
  | expression {d : Datum} (e : Derivation .expression d) : Derivation .form d
  | define {decl value : Datum} (d : Derivation .declaration decl)
      (v : Derivation .expression value) :
      Derivation .form (.list [.symbol "define", decl, value])
  | program {forms : List Datum} {first : Datum} (e : Derivation .form first)
      (es : Derivations .form forms) : Derivation .program (.list (.symbol "L5" :: first :: forms))

inductive Derivations : Category → List Datum → Type
  | nil {c : Category} : Derivations c []
  | cons {c : Category} {d : Datum} {ds : List Datum} (head : Derivation c d)
      (tail : Derivations c ds) : Derivations c (d :: ds)
end

/-! ## the trees of derivations -/

mutual
def Derivation.exp {c : Category} {d : Datum} : Derivation c d → Exp
  | @Derivation.decl x _ t _ _ => .decl x t
  | .binding d v => .binding d.exp v.exp
  | .number value => .number value
  | .boolean value => .boolean value
  | .string content => .string content
  | @Derivation.primitive name _ => .primitive name
  | @Derivation.var name _ => .var name
  | .conditional t c a => .conditional t.exp c.exp a.exp
  | @Derivation.lambda _ _ _ _ t ps _ e es => .lambda ps.exps t (e.exp :: es.exps)
  | .letIn bs e es => .letIn bs.exps (e.exp :: es.exps)
  | .letrec bs e es => .letrec bs.exps (e.exp :: es.exps)
  | @Derivation.quote _ v _ _ => .quote v
  | .app f es => .app f.exp es.exps
  | .expression e => e.exp
  | .define d v => .define d.exp v.exp
  | .program e es => .program (e.exp :: es.exps)

def Derivations.exps {c : Category} {ds : List Datum} : Derivations c ds → List Exp
  | .nil => []
  | .cons head tail => head.exp :: tail.exps
end

variable {c : Category} {d : Datum} {e : Exp}

mutual
theorem Derivation.derives {c : Category} {d : Datum} : ∀ t : Derivation c d, Derives c d t.exp
  | .decl hx ht => .decl (isVariableName_iff.mpr hx) ht
  | .binding d v => .binding d.derives v.derives
  | .number value => .number value
  | .boolean value => .boolean value
  | .string content => .string content
  | .primitive h => .primitive h
  | .var h => .var (isVariableName_iff.mpr h)
  | .conditional t c a => .conditional t.derives c.derives a.derives
  | .lambda ps ht e es => by
    obtain ⟨params, rfl, hparams, hps⟩ := ps.derives
    obtain ⟨body, rfl, hbody, hes⟩ := es.derives
    rw [Derivation.exp, hparams, hbody]
    exact .lambda hps ht (List.cons_ne_nil (_, e.exp) body)
      (List.forall_mem_cons.mpr ⟨e.derives, hes⟩)
  | .letIn bs e es => by
    obtain ⟨bindings, rfl, hbindings, hbs⟩ := bs.derives
    obtain ⟨body, rfl, hbody, hes⟩ := es.derives
    rw [Derivation.exp, hbindings, hbody]
    exact .letIn hbs (List.cons_ne_nil (_, e.exp) body)
      (List.forall_mem_cons.mpr ⟨e.derives, hes⟩)
  | .letrec bs e es => by
    obtain ⟨bindings, rfl, hbindings, hbs⟩ := bs.derives
    obtain ⟨body, rfl, hbody, hes⟩ := es.derives
    rw [Derivation.exp, hbindings, hbody]
    exact .letrec hbs (List.cons_ne_nil (_, e.exp) body)
      (List.forall_mem_cons.mpr ⟨e.derives, hes⟩)
  | .quote _ h => .quote h
  | .app f es => by
    obtain ⟨operands, rfl, hoperands, hes⟩ := es.derives
    rw [Derivation.exp, hoperands]
    exact .app f.derives hes
  | .expression e => .expression e.derives
  | .define d v => .define d.derives v.derives
  | .program e es => by
    obtain ⟨forms, rfl, hforms, hes⟩ := es.derives
    rw [Derivation.exp, hforms]
    exact .program (List.cons_ne_nil (_, e.exp) forms)
      (List.forall_mem_cons.mpr ⟨e.derives, hes⟩)

theorem Derivations.derives {c : Category} {ds : List Datum} : ∀ ts : Derivations c ds,
    ∃ ps : List (Datum × Exp), ds = ps.map Prod.fst ∧ ts.exps = ps.map Prod.snd ∧
      ∀ p ∈ ps, Derives c p.1 p.2
  | .nil => ⟨[], rfl, rfl, List.forall_mem_nil _⟩
  | @Derivations.cons _ d _ head tail => by
    obtain ⟨ps, rfl, hexps, hps⟩ := tail.derives
    refine ⟨(d, head.exp) :: ps, rfl, ?_, List.forall_mem_cons.mpr ⟨head.derives, hps⟩⟩
    rw [Derivations.exps, hexps, List.map_cons]
end

theorem exists_derivations {ps : List (Datum × Exp)}
    (h : ∀ p ∈ ps, ∃ t : Derivation c p.1, t.exp = p.2) :
    ∃ ts : Derivations c (ps.map Prod.fst), ts.exps = ps.map Prod.snd := by
  induction ps with
  | nil => exact ⟨.nil, rfl⟩
  | cons p ps ih =>
    rw [List.forall_mem_cons] at h
    obtain ⟨t, ht⟩ := h.1
    obtain ⟨ts, hts⟩ := ih h.2
    exact ⟨.cons t ts, by rw [Derivations.exps, ht, hts, List.map_cons]⟩

theorem exists_nonempty_derivations {ps : List (Datum × Exp)} (nonempty : ps ≠ [])
    (h : ∀ p ∈ ps, ∃ t : Derivation c p.1, t.exp = p.2) :
    ∃ (first : Datum) (rest : List Datum) (t : Derivation c first) (ts : Derivations c rest),
      ps.map Prod.fst = first :: rest ∧ ps.map Prod.snd = t.exp :: ts.exps := by
  obtain ⟨p, ps, rfl⟩ := List.exists_cons_of_ne_nil nonempty
  rw [List.forall_mem_cons] at h
  obtain ⟨t, ht⟩ := h.1
  obtain ⟨ts, hts⟩ := exists_derivations h.2
  exact ⟨p.1, ps.map Prod.fst, t, ts, rfl, by rw [ht, hts, List.map_cons]⟩

theorem Derives.exists_derivation (h : Derives c d e) : ∃ t : Derivation c d, t.exp = e := by
  induction h with
  | decl hx ht => exact ⟨.decl (isVariableName_iff.mp hx) ht, rfl⟩
  | binding _ _ ihd ihv =>
    obtain ⟨d, rfl⟩ := ihd
    obtain ⟨v, rfl⟩ := ihv
    exact ⟨.binding d v, rfl⟩
  | number value => exact ⟨.number value, rfl⟩
  | boolean value => exact ⟨.boolean value, rfl⟩
  | string content => exact ⟨.string content, rfl⟩
  | primitive h => exact ⟨.primitive h, rfl⟩
  | var h => exact ⟨.var (isVariableName_iff.mp h), rfl⟩
  | conditional _ _ _ iht ihc iha =>
    obtain ⟨t, rfl⟩ := iht
    obtain ⟨c, rfl⟩ := ihc
    obtain ⟨a, rfl⟩ := iha
    exact ⟨.conditional t c a, rfl⟩
  | @lambda params body result t _ hresult nonempty _ ihp ihb =>
    obtain ⟨ps, hps⟩ := exists_derivations ihp
    obtain ⟨first, rest, e, es, hdata, htrees⟩ := exists_nonempty_derivations nonempty ihb
    rw [hdata, htrees]
    exact ⟨.lambda ps hresult e es, by rw [Derivation.exp, hps]⟩
  | app hoperator _ iho ihs =>
    obtain ⟨f, rfl⟩ := iho
    obtain ⟨es, hes⟩ := exists_derivations ihs
    exact ⟨.app f es, by rw [Derivation.exp, hes]⟩
  | @letIn bindings body _ nonempty _ ihs ihb =>
    obtain ⟨bs, hbs⟩ := exists_derivations ihs
    obtain ⟨first, rest, e, es, hdata, htrees⟩ := exists_nonempty_derivations nonempty ihb
    rw [hdata, htrees]
    exact ⟨.letIn bs e es, by rw [Derivation.exp, hbs]⟩
  | @letrec bindings body _ nonempty _ ihs ihb =>
    obtain ⟨bs, hbs⟩ := exists_derivations ihs
    obtain ⟨first, rest, e, es, hdata, htrees⟩ := exists_nonempty_derivations nonempty ihb
    rw [hdata, htrees]
    exact ⟨.letrec bs e es, by rw [Derivation.exp, hbs]⟩
  | quote h => exact ⟨.quote h.dotsInPlace h, rfl⟩
  | expression _ ih =>
    obtain ⟨t, rfl⟩ := ih
    exact ⟨.expression t, rfl⟩
  | define _ _ ihd ihv =>
    obtain ⟨d, rfl⟩ := ihd
    obtain ⟨v, rfl⟩ := ihv
    exact ⟨.define d v, rfl⟩
  | @program forms nonempty _ ih =>
    obtain ⟨first, rest, e, es, hdata, htrees⟩ := exists_nonempty_derivations nonempty ih
    rw [hdata, htrees]
    exact ⟨.program e es, rfl⟩

/-- The trees of derivations are the trees that are built. -/
theorem read_eq_ok_iff_derivation : c.read d = .ok e ↔ ∃ t : Derivation c d, t.exp = e := by
  rw [read_eq_ok_iff]
  constructor
  · exact Derives.exists_derivation
  · rintro ⟨t, rfl⟩
    exact t.derives

/-! ## one derivation at most -/

/-- a list that begins with a keyword is no application -/
theorem Derivation.list_ne_keyword {operator : Datum} (f : Derivation .expression operator)
    {name : String} (hname : name ∈ keywords) {rest operands : List Datum} :
    Datum.list (.symbol name :: rest) ≠ .list (operator :: operands) := by
  intro h
  rw [Datum.list.injEq, List.cons.injEq] at h
  exact f.derives.ne_keyword name hname h.1.symm

/-- no expression begins with `define` -/
theorem Derivation.ne_define (t : Derivation .expression d) :
    ∀ rest, d ≠ .list (.symbol "define" :: rest) := by
  rintro rest rfl
  have hbuilt : ofDatum (.list (.symbol "define" :: rest)) = .ok t.exp := t.derives.read
  cases hbuilt

/-! The two derivations are of data with an equation between them: the constructors of the second
one are told apart by their heads, which are strings, and not by the type. -/

mutual
theorem Derivation.unique {c : Category} {d d' : Datum} :
    ∀ (t : Derivation c d) (u : Derivation c d') (h : d = d'), h ▸ t = u
  | .decl _ ht, u, h => by
    cases u with
    | decl _ ht' =>
      simp only [Datum.list.injEq, List.cons.injEq, Datum.atom.injEq, Atom.symbol.injEq] at h
      obtain ⟨rfl, -, rfl, -⟩ := h
      obtain rfl := Except.ok.inj (ht.symm.trans ht')
      rfl
  | .binding d v, u, h => by
    cases u with
    | binding d' v' =>
      simp only [Datum.list.injEq, List.cons.injEq] at h
      obtain ⟨rfl, rfl, -⟩ := h
      obtain rfl := d.unique d' rfl
      obtain rfl := v.unique v' rfl
      rfl
  | .number _, u, h => by
    cases u with
    | number =>
      cases h
      rfl
    | _ => cases h
  | .boolean _, u, h => by
    cases u with
    | boolean =>
      cases h
      rfl
    | _ => cases h
  | .string _, u, h => by
    cases u with
    | string =>
      cases h
      rfl
    | _ => cases h
  | .primitive hname, u, h => by
    cases u with
    | primitive =>
      cases h
      rfl
    | var hname' =>
      cases h
      exact absurd hname hname'.1
    | _ => cases h
  | .var hname, u, h => by
    cases u with
    | var =>
      cases h
      rfl
    | primitive hname' =>
      cases h
      exact absurd hname' hname.1
    | _ => cases h
  | .conditional t c a, u, h => by
    cases u with
    | conditional t' c' a' =>
      simp only [Datum.list.injEq, List.cons.injEq] at h
      obtain ⟨-, rfl, rfl, rfl, -⟩ := h
      obtain rfl := t.unique t' rfl
      obtain rfl := c.unique c' rfl
      obtain rfl := a.unique a' rfl
      rfl
    | app f => exact absurd h (f.list_ne_keyword (by decide))
    | _ => simp at h
  | .lambda ps ht e es, u, h => by
    cases u with
    | lambda ps' ht' e' es' =>
      simp only [Datum.list.injEq, List.cons.injEq] at h
      obtain ⟨-, rfl, -, rfl, rfl, rfl⟩ := h
      obtain rfl := ps.unique ps' rfl
      obtain rfl := Except.ok.inj (ht.symm.trans ht')
      obtain rfl := e.unique e' rfl
      obtain rfl := es.unique es' rfl
      rfl
    | app f => exact absurd h (f.list_ne_keyword (by decide))
    | _ => simp at h
  | .letIn bs e es, u, h => by
    cases u with
    | letIn bs' e' es' =>
      simp only [Datum.list.injEq, List.cons.injEq] at h
      obtain ⟨-, rfl, rfl, rfl⟩ := h
      obtain rfl := bs.unique bs' rfl
      obtain rfl := e.unique e' rfl
      obtain rfl := es.unique es' rfl
      rfl
    | app f => exact absurd h (f.list_ne_keyword (by decide))
    | _ => simp at h
  | .letrec bs e es, u, h => by
    cases u with
    | letrec bs' e' es' =>
      simp only [Datum.list.injEq, List.cons.injEq] at h
      obtain ⟨-, rfl, rfl, rfl⟩ := h
      obtain rfl := bs.unique bs' rfl
      obtain rfl := e.unique e' rfl
      obtain rfl := es.unique es' rfl
      rfl
    | app f => exact absurd h (f.list_ne_keyword (by decide))
    | _ => simp at h
  | .quote _ hv, u, h => by
    cases u with
    | quote _ hv' =>
      simp only [Datum.list.injEq, List.cons.injEq] at h
      obtain ⟨-, rfl, -⟩ := h
      obtain rfl := Except.ok.inj (hv.ofDatum.symm.trans hv'.ofDatum)
      rfl
    | app f => exact absurd h (f.list_ne_keyword (by decide))
    | _ => simp at h
  | .app f es, u, h => by
    cases u with
    | app f' es' =>
      simp only [Datum.list.injEq, List.cons.injEq] at h
      obtain ⟨rfl, rfl⟩ := h
      obtain rfl := f.unique f' rfl
      obtain rfl := es.unique es' rfl
      rfl
    | number | boolean | string | primitive | var => cases h
    | conditional | lambda | letIn | letrec | quote =>
      exact absurd h.symm (f.list_ne_keyword (by decide))
  | .expression e, u, h => by
    cases u with
    | expression e' =>
      subst h
      obtain rfl := e.unique e' rfl
      rfl
    | define => exact absurd h (e.ne_define _)
  | .define d v, u, h => by
    cases u with
    | define d' v' =>
      simp only [Datum.list.injEq, List.cons.injEq] at h
      obtain ⟨-, rfl, rfl, -⟩ := h
      obtain rfl := d.unique d' rfl
      obtain rfl := v.unique v' rfl
      rfl
    | expression e => exact absurd h.symm (e.ne_define _)
  | .program e es, u, h => by
    cases u with
    | program e' es' =>
      simp only [Datum.list.injEq, List.cons.injEq] at h
      obtain ⟨-, rfl, rfl⟩ := h
      obtain rfl := e.unique e' rfl
      obtain rfl := es.unique es' rfl
      rfl

theorem Derivations.unique {c : Category} {ds ds' : List Datum} :
    ∀ (ts : Derivations c ds) (us : Derivations c ds') (h : ds = ds'), h ▸ ts = us
  | .nil, us, h => by
    cases us with
    | nil => rfl
    | cons => cases h
  | .cons head tail, us, h => by
    cases us with
    | nil => cases h
    | cons head' tail' =>
      obtain ⟨rfl, rfl⟩ := List.cons.inj h
      obtain rfl := head.unique head' rfl
      obtain rfl := tail.unique tail' rfl
      rfl
end

/-! ## the nodes of a tree -/

def body? : Exp → Option (List Exp)
  | .lambda _ _ body => some body
  | .letIn _ body => some body
  | .letrec _ body => some body
  | _ => none

theorem exists_of_mem_map_snd {α β : Type} {ps : List (α × β)} {b : β} {P : α → β → Prop}
    (h : ∀ p ∈ ps, P p.1 p.2) (hb : b ∈ ps.map Prod.snd) : ∃ a, P a b := by
  obtain ⟨p, hp, rfl⟩ := List.mem_map.mp hb
  exact ⟨p.1, h p hp⟩

variable {node next : Exp}

/-- The children of a tree are trees of the grammar; only a program has forms among them, and none
has a program. -/
theorem Derives.child (h : Derives c d e) (hnext : next ∈ e.children) :
    ∃ c' d', Derives c' d' next ∧ c' ≠ .program ∧ (c' = .form → c = .program) := by
  induction h with
  | decl | number | boolean | string | primitive | var | quote =>
    exact absurd hnext List.not_mem_nil
  | binding hdecl hvalue ihd ihv =>
    simp only [children, List.mem_cons, List.not_mem_nil, or_false] at hnext
    rcases hnext with rfl | rfl
    · exact ⟨.declaration, _, hdecl, Category.noConfusion, Category.noConfusion⟩
    · exact ⟨.expression, _, hvalue, Category.noConfusion, Category.noConfusion⟩
  | conditional htest hconsequent halternative =>
    simp only [children, List.mem_cons, List.not_mem_nil, or_false] at hnext
    rcases hnext with rfl | rfl | rfl
    · exact ⟨.expression, _, htest, Category.noConfusion, Category.noConfusion⟩
    · exact ⟨.expression, _, hconsequent, Category.noConfusion, Category.noConfusion⟩
    · exact ⟨.expression, _, halternative, Category.noConfusion, Category.noConfusion⟩
  | lambda hparams _ _ hbody =>
    rcases List.mem_append.mp hnext with hnext | hnext
    · obtain ⟨d', h⟩ := exists_of_mem_map_snd hparams hnext
      exact ⟨.declaration, d', h, Category.noConfusion, Category.noConfusion⟩
    · obtain ⟨d', h⟩ := exists_of_mem_map_snd hbody hnext
      exact ⟨.expression, d', h, Category.noConfusion, Category.noConfusion⟩
  | app hoperator hoperands =>
    rcases List.mem_cons.mp hnext with rfl | hnext
    · exact ⟨.expression, _, hoperator, Category.noConfusion, Category.noConfusion⟩
    · obtain ⟨d', h⟩ := exists_of_mem_map_snd hoperands hnext
      exact ⟨.expression, d', h, Category.noConfusion, Category.noConfusion⟩
  | letIn hbindings _ hbody | letrec hbindings _ hbody =>
    rcases List.mem_append.mp hnext with hnext | hnext
    · obtain ⟨d', h⟩ := exists_of_mem_map_snd hbindings hnext
      exact ⟨.binding, d', h, Category.noConfusion, Category.noConfusion⟩
    · obtain ⟨d', h⟩ := exists_of_mem_map_snd hbody hnext
      exact ⟨.expression, d', h, Category.noConfusion, Category.noConfusion⟩
  | expression _ ih =>
    obtain ⟨c', d', h, hprogram, hform⟩ := ih hnext
    exact ⟨c', d', h, hprogram, fun heq => Category.noConfusion (hform heq)⟩
  | define hdecl hvalue =>
    simp only [children, List.mem_cons, List.not_mem_nil, or_false] at hnext
    rcases hnext with rfl | rfl
    · exact ⟨.declaration, _, hdecl, Category.noConfusion, Category.noConfusion⟩
    · exact ⟨.expression, _, hvalue, Category.noConfusion, Category.noConfusion⟩
  | program _ hforms =>
    obtain ⟨d', h⟩ := exists_of_mem_map_snd hforms hnext
    exact ⟨.form, d', h, Category.noConfusion, fun _ => rfl⟩

/-- below anything but a program there is no program -/
theorem Derives.nodes_of_ne_program (h : Derives c d e) (hc : c ≠ .program)
    (hnode : NodeOf node e) : ∃ c' d', Derives c' d' node ∧ c' ≠ .program := by
  induction hnode generalizing c d with
  | root => exact ⟨c, d, h, hc⟩
  | child hnext _ ih =>
    obtain ⟨c', d', h', hprogram, -⟩ := h.child hnext
    exact ih h' hprogram

/-- The nodes of a tree are trees of the grammar, and only the root is a program. -/
theorem Derives.nodes (h : Derives c d e) (hnode : NodeOf node e) :
    ∃ c' d', Derives c' d' node ∧ (node = e ∨ c' ≠ .program) := by
  cases hnode with
  | root => exact ⟨c, d, h, .inl rfl⟩
  | child hnext below =>
    obtain ⟨c', d', h', hprogram, -⟩ := h.child hnext
    obtain ⟨c', d', h', hc'⟩ := h'.nodes_of_ne_program hprogram below
    exact ⟨c', d', h', .inr hc'⟩

theorem Derives.category_of_define {decl value : Exp} (h : Derives c d (.define decl value)) :
    c = .form := by
  cases h with
  | expression h => cases h
  | define => rfl

/-- A definition below the root of a tree is a form of the program that is the tree. -/
theorem Derives.define_at_top (h : Derives c d e) (hnode : NodeOf node e) {decl value : Exp}
    (hdefine : .define decl value ∈ node.children) : node = e ∧ ∃ forms, e = .program forms := by
  obtain ⟨c', d', h', hroot⟩ := h.nodes hnode
  obtain ⟨c'', d'', h'', -, hform⟩ := h'.child hdefine
  obtain rfl := hform h''.category_of_define
  obtain rfl := hroot.resolve_right fun hne => hne rfl
  cases h' with
  | program => exact ⟨rfl, _, rfl⟩

theorem Derives.body_ne_nil (h : Derives c d e) {body : List Exp} (hbody : e.body? = some body) :
    body ≠ [] := by
  induction h with
  | lambda _ _ nonempty | letIn _ nonempty | letrec _ nonempty =>
    obtain rfl := Option.some.inj hbody
    exact mt List.map_eq_nil_iff.mp nonempty
  | expression _ ih => exact ih hbody
  | _ => cases hbody

/-! ## the grammar -/

theorem failsWith_read (c : Category) (d : Datum) :
    Except.FailsWith (FormError.Within d) (c.read d) := by
  cases c with
  | declaration => exact failsWith_ofDecl d
  | binding => exact failsWith_ofBinding fun part _ => failsWith_ofDatum part
  | expression => exact failsWith_ofDatum d
  | form => exact failsWith_ofForm d
  | program => exact failsWith_ofProgram d

/-- A datum is read as a tree of a category just if it is derived from the category, and the tree is
that of the derivation, of which there is one only. Otherwise the datum is an error, with a message
if it has no gaps. Just the data with all dots in place can be quoted, whatever else is in them. In
a tree that is read, definitions are forms of the program or the whole, and no body is empty. -/
theorem read_iff_derivation (c : Category) (d : Datum) :
    (∀ e, c.read d = .ok e ↔ ∃ t : Derivation c d, t.exp = e) ∧
      Subsingleton (Derivation c d) ∧
      (IsEmpty (Derivation c d) ↔ ∃ error, c.read d = .error error ∧
        (d.gap? = none → ∃ message, error.message = .ok message)) ∧
      ((∃ v, Value.Derives d v) ↔ d.DotsInPlace) ∧
      ∀ e, c.read d = .ok e →
        (∀ node, NodeOf node e → ∀ decl value, .define decl value ∈ node.children →
          node = e ∧ ∃ forms, e = .program forms) ∧
        ∀ node, NodeOf node e → ∀ body, node.body? = some body → body ≠ [] := by
  refine ⟨fun e => read_eq_ok_iff_derivation, ⟨fun t u => t.unique u rfl⟩,
    ⟨fun h => ?_, fun h => ?_⟩, Value.exists_derives_iff,
    fun e h => ⟨fun node hnode decl value => ?_, fun node hnode body => ?_⟩⟩
  · cases hread : c.read d with
    | ok e =>
      obtain ⟨t, -⟩ := read_eq_ok_iff_derivation.mp hread
      exact (h.false t).elim
    | error error =>
      refine ⟨error, rfl, fun hgap => ⟨_, Gap.orText_of_eq_none ?_ _⟩⟩
      exact ((Datum.over_of_gap? hgap).within (failsWith_read c d error hread).datum).gap?
  · obtain ⟨error, herror, -⟩ := h
    refine ⟨fun t => ?_⟩
    have hok := read_eq_ok_iff_derivation.mpr ⟨t, rfl⟩
    rw [hok] at herror
    cases herror
  · exact (read_eq_ok_iff.mp h).define_at_top hnode
  · obtain ⟨c', d', h', -⟩ := (read_eq_ok_iff.mp h).nodes hnode
    exact h'.body_ne_nil

end AnnotatedScheme.Exp
