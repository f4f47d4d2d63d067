import AnnotatedScheme.Proofs.Exp.Derivation
import AnnotatedScheme.Proofs.Exp.RoundTrip
import AnnotatedScheme.Proofs.Ty.Grammar

/-!
# Trees are written like their data

There are three printers: one of data, one of trees, and one of the types in trees. A tree that was
built of a datum is written like this datum, unless there is a quotation in it: `(quote x)` is
written with the mark, and what is quoted as a value.

* `Datum.IsText`       the text of a datum without gaps; `isText_list` and `isText_body` are about
                       lists, with the items of a body at the end of the list around it, and
                       `isText_scope` about bindings before such a body;
* `Derives.isText`     the text of a tree without quotations, one case for each production;
* `written_of_read`    the trees of every category are written like their data.
-/

namespace AnnotatedScheme

/-- `text` is the text of `d`, in which there is no gap -/
def Datum.IsText (text : String) (d : Datum) : Prop := d.gap? = none ∧ text = d.text

namespace Exp

open Datum (IsText)

theorem isText_symbol (name : String) : IsText name (.symbol name) := ⟨rfl, rfl⟩

theorem isText_list {texts : List String} {ds : List Datum} (h : List.Forall₂ IsText texts ds) :
    IsText (listText texts) (.list ds) := by
  have heq : Datum.firstGap? ds = none ∧ texts = Datum.texts ds := by
    induction h with
    | nil => exact ⟨rfl, rfl⟩
    | cons head _ ih =>
      obtain ⟨hgap, rfl⟩ := head
      obtain ⟨hrest, rfl⟩ := ih
      refine ⟨?_, rfl⟩
      rw [Datum.firstGap?, hgap, hrest]
      rfl
  obtain ⟨hgap, rfl⟩ := heq
  exact ⟨hgap, rfl⟩

theorem isText_type {type : Datum} {t : Ty} (h : Ty.ofDatum type = .ok t) :
    IsText t.text type := by
  have hgap := (Ty.derives_of_ofDatum h).gap?
  refine ⟨hgap, ?_⟩
  rw [← Ty.text_datum, Ty.datum_of_ofDatum h]

/-! ## trees -/

/-- there is no quotation in the tree -/
def Unquoted (e : Exp) : Prop := ∀ value, ¬NodeOf (.quote value) e

theorem unquoted_iff {e : Exp} :
    e.Unquoted ↔ (∀ value, e ≠ .quote value) ∧ ∀ next ∈ e.children, next.Unquoted := by
  constructor
  · intro h
    refine ⟨fun value heq => h value (heq ▸ .root), fun next hnext value below => ?_⟩
    exact h value (.child hnext below)
  · rintro ⟨hne, hchildren⟩ value hnode
    cases hnode with
    | root => exact hne value rfl
    | child hnext below => exact hchildren _ hnext value below

theorem Unquoted.child {e next : Exp} (h : e.Unquoted) (hnext : next ∈ e.children) :
    next.Unquoted :=
  (unquoted_iff.mp h).2 next hnext

section

variable {ps : List (Datum × Exp)}

theorem forall₂_texts (h : ∀ p ∈ ps, p.2.Unquoted → IsText p.2.text p.1)
    (unquoted : ∀ e ∈ ps.map Prod.snd, e.Unquoted) :
    List.Forall₂ IsText (texts (ps.map Prod.snd)) (ps.map Prod.fst) := by
  rw [texts_eq_map, List.map_map, List.forall₂_map_left_iff, List.forall₂_map_right_iff,
    List.forall₂_same]
  exact fun p hp => h p hp (unquoted p.2 (List.mem_map_of_mem hp))

theorem isText_body {front : List String} {ds : List Datum} (hfront : List.Forall₂ IsText front ds)
    (nonempty : ps ≠ []) (h : List.Forall₂ IsText (texts (ps.map Prod.snd)) (ps.map Prod.fst)) :
    IsText (listText (front ++ [" ".intercalate (texts (ps.map Prod.snd))]))
      (.list (ds ++ ps.map Prod.fst)) := by
  have htexts : texts (ps.map Prod.snd) ≠ [] := by
    rw [texts_eq_map]
    exact mt List.map_eq_nil_iff.mp (mt List.map_eq_nil_iff.mp nonempty)
  rw [listText_concat htexts]
  exact isText_list (List.rel_append hfront h)

/-- bindings and a body behind a keyword -/
theorem isText_scope (keyword : String) {bindings : List (Datum × Exp)}
    (h : List.Forall₂ IsText (texts (bindings.map Prod.snd)) (bindings.map Prod.fst))
    (nonempty : ps ≠ [])
    (hbody : List.Forall₂ IsText (texts (ps.map Prod.snd)) (ps.map Prod.fst)) :
    IsText (listText [keyword, listText (texts (bindings.map Prod.snd)),
        " ".intercalate (texts (ps.map Prod.snd))])
      (.list (.symbol keyword :: .list (bindings.map Prod.fst) :: ps.map Prod.fst)) := by
  have hfront := List.Forall₂.cons (isText_symbol keyword) (.cons (isText_list h) .nil)
  have htext := isText_body hfront nonempty hbody
  exact htext

end

variable {c : Category} {d : Datum} {e : Exp}

/-- A tree without quotations has the text of the datum from which it is derived. -/
theorem Derives.isText (h : Derives c d e) (unquoted : e.Unquoted) : IsText e.text d := by
  induction h with
  | decl _ ht => exact isText_list (.cons (isText_symbol _) (.cons (isText_symbol ":")
      (.cons (isText_type ht) .nil)))
  | binding _ _ ihd ihv =>
    have hdecl := ihd (unquoted.child List.mem_cons_self)
    have hvalue := ihv (unquoted.child (by simp [children]))
    exact isText_list (.cons hdecl (.cons hvalue .nil))
  | number | boolean | string => exact ⟨rfl, rfl⟩
  | primitive | var => exact isText_symbol _
  | conditional _ _ _ iht ihc iha =>
    have htest := iht (unquoted.child List.mem_cons_self)
    have hconsequent := ihc (unquoted.child (by simp [children]))
    have halternative := iha (unquoted.child (by simp [children]))
    exact isText_list (.cons (isText_symbol "if")
      (.cons htest (.cons hconsequent (.cons halternative .nil))))
  | lambda _ hresult nonempty _ ihp ihb =>
    obtain ⟨hparams, hbody⟩ := List.forall_mem_append.mp fun _ => unquoted.child
    have hfront := List.Forall₂.cons (isText_symbol "lambda")
      (.cons (isText_list (forall₂_texts ihp hparams))
        (.cons (isText_symbol ":") (.cons (isText_type hresult) .nil)))
    have htext := isText_body hfront nonempty (forall₂_texts ihb hbody)
    exact htext
  | app _ _ iho iha =>
    obtain ⟨hoperator, hoperands⟩ := List.forall_mem_cons.mp fun _ => unquoted.child
    exact isText_list (.cons (iho hoperator) (forall₂_texts iha hoperands))
  | letIn _ nonempty _ ihs ihb | letrec _ nonempty _ ihs ihb =>
    obtain ⟨hbindings, hbody⟩ := List.forall_mem_append.mp fun _ => unquoted.child
    exact isText_scope _ (forall₂_texts ihs hbindings) nonempty (forall₂_texts ihb hbody)
  | quote => exact absurd .root (unquoted _)
  | expression _ ih => exact ih unquoted
  | define _ _ ihd ihv =>
    have hdecl := ihd (unquoted.child List.mem_cons_self)
    have hvalue := ihv (unquoted.child (by simp [children]))
    exact isText_list (.cons (isText_symbol "define") (.cons hdecl (.cons hvalue .nil)))
  | program nonempty _ ih =>
    have hforms := forall₂_texts ih fun _ => unquoted.child
    have htext := isText_body (.cons (isText_symbol "L5") .nil) nonempty hforms
    exact htext

/-! ## no gaps -/

theorem Category.Trees.gap? {Q : String → Prop} (h : c.Trees Q e) : e.gap? = none := by
  cases c with
  | declaration =>
    obtain ⟨p, rfl, hdecl⟩ := h
    exact hdecl.type.gap?
  | binding =>
    obtain ⟨b, rfl, hdecl, hvalue⟩ := h
    have htype : b.type.gap? = none := hdecl.type.gap?
    rw [Bound.binding, Exp.gap?, Exp.gap?, htype, hvalue.gap?]
    rfl
  | expression => exact IsExpression.gap? h
  | form => exact IsForm.gap? h
  | program => exact IsProgram.gap? h

/-- A tree without quotations is written, character by character, like the datum that it was built
of. -/
theorem written_of_read (read : c.read d = .ok e)
    (unquoted : ∀ value, ¬NodeOf (.quote value) e) : d.gap? = none ∧ e.written = .ok d.text := by
  have derives := read_eq_ok_iff.mp read
  obtain ⟨hgap, htext⟩ := derives.isText unquoted
  refine ⟨hgap, ?_⟩
  rw [written, (derives.trees (Datum.over_of_gap? hgap)).gap?, htext]
  rfl

/-- `(L5 (define (f : (Empty -> number)) (lambda () : number 5)) (f))` -/
def thunkProgram : Datum :=
  .list [.symbol "L5",
    .list [.symbol "define",
      .list [.symbol "f", .symbol ":",
        .list [.symbol "Empty", .symbol "->", .symbol "number"]],
      .list [.symbol "lambda", .list [], .symbol ":", .symbol "number",
        .atom (.number (.int 5))]],
    .list [.symbol "f"]]

def thunkProgramExp : Exp :=
  .program [.define (.decl "f" (.proc [] .number)) (.lambda [] .number [.number (.int 5)]),
    .app (.var "f") []]

theorem written_thunkProgramExp :
    Category.program.read thunkProgram = .ok thunkProgramExp ∧
      (∀ value, ¬NodeOf (.quote value) thunkProgramExp) ∧
      thunkProgramExp.written =
        .ok "(L5 (define (f : (Empty -> number)) (lambda () : number 5)) (f))" := by
  have read : Category.program.read thunkProgram = .ok thunkProgramExp := rfl
  have leaf : ∀ {e : Exp}, (∀ value, e ≠ .quote value) → e.children = [] → e.Unquoted :=
    fun hne hchildren => unquoted_iff.mpr ⟨hne, hchildren ▸ List.forall_mem_nil _⟩
  have lambda : (Exp.lambda [] .number [.number (.int 5)]).Unquoted :=
    unquoted_iff.mpr ⟨nofun, List.forall_mem_singleton.mpr (leaf nofun rfl)⟩
  have define : (Exp.define (.decl "f" (.proc [] .number))
      (.lambda [] .number [.number (.int 5)])).Unquoted :=
    unquoted_iff.mpr ⟨nofun, List.forall_mem_cons.mpr
      ⟨leaf nofun rfl, List.forall_mem_singleton.mpr lambda⟩⟩
  have app : (Exp.app (.var "f") []).Unquoted :=
    unquoted_iff.mpr ⟨nofun, List.forall_mem_singleton.mpr (leaf nofun rfl)⟩
  have unquoted : thunkProgramExp.Unquoted :=
    unquoted_iff.mpr ⟨nofun, List.forall_mem_cons.mpr
      ⟨define, List.forall_mem_singleton.mpr app⟩⟩
  have htext : thunkProgram.text =
      "(L5 (define (f : (Empty -> number)) (lambda () : number 5)) (f))" := by decide +kernel
  exact ⟨read, unquoted, htext ▸ (written_of_read read unquoted).2⟩

end Exp

end AnnotatedScheme
