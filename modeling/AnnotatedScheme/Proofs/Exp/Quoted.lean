import AnnotatedScheme.Proofs.Datum.Read
import AnnotatedScheme.Proofs.Ty.Reader
import AnnotatedScheme.Proofs.Value.Dots

/-!
# Dots are quoted

A dotted list is a list with one item more, and no form, declaration, binding or type takes it for
something else: where a source text is built into a tree, each dot that was read lies in the datum
of a literal of this tree, in front of the last item of a list (`Datum.DotsQuoted`). And all that is
read can be quoted, but a dot and what contains a quoted dot (`dots_quoted`).
-/

namespace AnnotatedScheme

namespace Datum

/-! ## paths -/

/-- the part at the end of a path, each step of which goes to an item of a list -/
def at? : List Nat → Datum → Option Datum
  | [], d => some d
  | i :: path, .list items => items[i]?.bind (at? path)
  | _ :: _, _ => none

theorem at?_append (path path' : List Nat) (d : Datum) :
    d.at? (path ++ path') = (d.at? path).bind (at? path') := by
  induction path generalizing d with
  | nil => rfl
  | cons i path ih =>
    cases d with
    | list items =>
      show items[i]?.bind (at? (path ++ path')) = (items[i]?.bind (at? path)).bind (at? path')
      rw [Option.bind_assoc, funext ih]
    | atom | gap => rfl

theorem within_of_at? {path : List Nat} {part d : Datum} (h : d.at? path = some part) :
    part.Within d := by
  induction path generalizing d with
  | nil =>
    obtain rfl := Option.some.inj h
    exact .refl
  | cons i path ih =>
    cases d with
    | list items =>
      obtain ⟨item, hitem, hpart⟩ := Option.bind_eq_some_iff.mp h
      exact .item (List.mem_of_getElem? hitem) (ih hpart)
    | atom | gap => cases h

/-! ## dots -/

/-- a path into a quoted datum, whose value is in `values`, that ends in front of the last item of
a list -/
def IsQuotedPlace (values : List Value) (d : Datum) (path : List Nat) : Prop :=
  ∃ place q inner items i, path = place ++ 1 :: (inner ++ [i]) ∧
    d.at? place = some (quote q) ∧ (∃ v ∈ values, Value.ofDatum q = .ok v) ∧
      q.at? inner = some (.list items) ∧ i + 2 = items.length

/-- all dots are in such places -/
def DotsQuoted (values : List Value) (d : Datum) : Prop :=
  ∀ path, d.at? path = some dot → d.IsQuotedPlace values path

section

variable {values values' : List Value} {d : Datum}

theorem DotsQuoted.mono (h : d.DotsQuoted values) (hsub : values ⊆ values') :
    d.DotsQuoted values' := by
  intro path hpath
  obtain ⟨place, q, inner, items, i, hplace, hquote, ⟨v, hv, hvalue⟩, hlist⟩ := h path hpath
  exact ⟨place, q, inner, items, i, hplace, hquote, ⟨v, hsub hv, hvalue⟩, hlist⟩

theorem dotsQuoted_atom {value : Atom} (h : value ≠ .symbol ".") :
    (atom value).DotsQuoted values := by
  intro path hpath
  cases path with
  | nil => exact absurd (Datum.atom.inj (Option.some.inj hpath)) h
  | cons => cases hpath

theorem dotsQuoted_symbol {name : String} (h : name ≠ ".") : (symbol name).DotsQuoted values :=
  dotsQuoted_atom fun heq => h (Atom.symbol.inj heq)

theorem dotsQuoted_list {items : List Datum} (h : ∀ d ∈ items, d.DotsQuoted values) :
    (list items).DotsQuoted values := by
  intro path hpath
  cases path with
  | nil => cases hpath
  | cons i path =>
    obtain ⟨d, hd, hdot⟩ := Option.bind_eq_some_iff.mp hpath
    obtain ⟨place, q, inner, items', j, rfl, hquote, hrest⟩ :=
      h d (List.mem_of_getElem? hd) path hdot
    have hplace : (list items).at? (i :: place) = some (quote q) :=
      Option.bind_eq_some_iff.mpr ⟨d, hd, hquote⟩
    exact ⟨i :: place, q, inner, items', j, rfl, hplace, hrest⟩

/-- In a quoted datum the dots are in their place. -/
theorem dotsQuoted_quote {v : Value} (h : Value.Derives d v) (hv : v ∈ values) :
    (quote d).DotsQuoted values := by
  intro path hpath
  match path with
  | [] => cases hpath
  | [0] => exact absurd (Atom.symbol.inj (Datum.atom.inj (Option.some.inj hpath))) (by decide)
  | 0 :: _ :: _ => cases hpath
  | (i + 2) :: path => cases hpath
  | 1 :: path =>
    have hdot : d.at? path = some dot := hpath
    rcases List.eq_nil_or_concat' path with rfl | ⟨inner, i, rfl⟩
    · exact absurd (Option.some.inj hdot) h.dotsInPlace.ne_dot
    · rw [at?_append] at hdot
      obtain ⟨part, hpart, hi⟩ := Option.bind_eq_some_iff.mp hdot
      cases part with
      | list items =>
        obtain ⟨item, hitem, hlast⟩ := Option.bind_eq_some_iff.mp hi
        obtain rfl := Option.some.inj hlast
        have hplace := h.dotsInPlace.lists items (within_of_at? hpart) i hitem
        exact ⟨[], d, inner, items, i, rfl, rfl, ⟨v, hv, h.ofDatum⟩, hpart, hplace.1⟩
      | atom | gap => cases hi

end

end Datum

open Datum

variable {values : List Value}

/-! ## types -/

theorem Ty.dotsQuoted_of_ofDatum {d : Datum} {t : Ty} (h : ofDatum d = .ok t) :
    d.DotsQuoted values := by
  induction d using Datum.induct generalizing t with
  | atom value =>
    refine dotsQuoted_atom ?_
    rintro rfl
    cases h
  | list items ih =>
    refine dotsQuoted_list fun d hd => ?_
    rcases ofDatum_list_cases h with ⟨b, c, first, second, rfl, hfirst, hsecond, -⟩ |
      ⟨ds, types, result, r, -, rfl, htypes, hresult, -⟩
    · simp only [List.mem_cons, List.not_mem_nil, or_false] at hd
      rcases hd with rfl | rfl | rfl
      · exact dotsQuoted_symbol (by decide)
      · exact ih d (by simp) hfirst
      · exact ih d (by simp) hsecond
    · have hitem := hd
      simp only [List.mem_append, List.mem_cons, List.not_mem_nil, or_false] at hd
      rcases hd with hd | rfl | rfl
      · rcases mem_separated hd with hd | rfl | rfl
        · obtain ⟨t, -, ht⟩ := exists_of_map_eq htypes.symm hd
          exact ih d hitem ht.symm
        · exact dotsQuoted_symbol (by decide)
        · exact dotsQuoted_symbol (by decide)
      · exact dotsQuoted_symbol (by decide)
      · exact ih d hitem hresult
  | gap => cases h

/-! ## trees -/

namespace Exp

mutual
/-- the quoted values in a tree, from left to right -/
def literals : Exp → List Value
  | .conditional test consequent alternative =>
    test.literals ++ consequent.literals ++ alternative.literals
  | .lambda _ _ body => literalsAll body
  | .app operator operands => operator.literals ++ literalsAll operands
  | .letIn bindings body => literalsAll bindings ++ literalsAll body
  | .letrec bindings body => literalsAll bindings ++ literalsAll body
  | .quote value => [value]
  | .define _ value => value.literals
  | .program forms => literalsAll forms
  | .binding _ value => value.literals
  | _ => []

def literalsAll : List Exp → List Value
  | [] => []
  | e :: rest => e.literals ++ literalsAll rest
end

theorem literalsAll_eq_flatMap (es : List Exp) : literalsAll es = es.flatMap literals := by
  induction es with
  | nil => rfl
  | cons e rest ih => rw [literalsAll, ih, List.flatMap_cons]

theorem Derives.dotsQuoted_declaration {d : Datum} {e : Exp} (h : Derives .declaration d e) :
    d.DotsQuoted values := by
  cases h with
  | decl hx ht =>
    refine dotsQuoted_list (List.forall_mem_cons.mpr ⟨?_, List.forall_mem_cons.mpr ⟨?_, ?_⟩⟩)
    · exact dotsQuoted_symbol (isVariableName_iff.mp hx).2.2
    · exact dotsQuoted_symbol (by decide)
    · exact List.forall_mem_singleton.mpr (Ty.dotsQuoted_of_ofDatum ht)

/-- the data of trees that stand in a row -/
theorem dotsQuoted_items {ps : List (Datum × Exp)}
    (h : ∀ p ∈ ps, p.1.DotsQuoted p.2.literals) (hsub : literalsAll (ps.map Prod.snd) ⊆ values) :
    ∀ d ∈ ps.map Prod.fst, d.DotsQuoted values := by
  refine List.forall_mem_map.mpr fun p hp => (h p hp).mono fun v hv => hsub ?_
  rw [literalsAll_eq_flatMap]
  exact List.mem_flatMap.mpr ⟨p.2, List.mem_map_of_mem hp, hv⟩

/-- behind a keyword -/
theorem dotsQuoted_keyword {name : String} (h : name ∈ keywords) {items : List Datum}
    (hitems : ∀ d ∈ items, d.DotsQuoted values) :
    (list (symbol name :: items)).DotsQuoted values := by
  refine dotsQuoted_list (List.forall_mem_cons.mpr ⟨dotsQuoted_symbol ?_, hitems⟩)
  rintro rfl
  exact absurd h (by decide)

/-- By induction on the derivation: a quoted datum is the only part of a form that may have a dot. -/
theorem Derives.dotsQuoted {c : Category} {d : Datum} {e : Exp} (h : Derives c d e) :
    d.DotsQuoted e.literals := by
  induction h with
  | decl hx ht => exact (Derives.decl hx ht).dotsQuoted_declaration
  | binding hdecl _ _ ihv =>
    exact dotsQuoted_list (List.forall_mem_cons.mpr
      ⟨hdecl.dotsQuoted_declaration, List.forall_mem_singleton.mpr ihv⟩)
  | number | boolean | string => exact dotsQuoted_atom Atom.noConfusion
  | primitive h =>
    refine dotsQuoted_symbol ?_
    rintro rfl
    exact absurd h (by decide)
  | var h => exact dotsQuoted_symbol (isVariableName_iff.mp h).2.2
  | conditional _ _ _ iht ihc iha =>
    rw [literals, List.append_assoc]
    refine dotsQuoted_keyword (by decide) (List.forall_mem_cons.mpr ⟨?_, List.forall_mem_cons.mpr
      ⟨?_, List.forall_mem_singleton.mpr ?_⟩⟩)
    · exact iht.mono (List.subset_append_left _ _)
    · exact ihc.mono (List.subset_append_of_subset_right _ (List.subset_append_left _ _))
    · exact iha.mono (List.subset_append_of_subset_right _ (List.subset_append_right _ _))
  | lambda hparams hresult _ _ _ ihb =>
    rw [literals]
    refine dotsQuoted_keyword (by decide) (List.forall_mem_cons.mpr ⟨?_, List.forall_mem_cons.mpr
      ⟨?_, List.forall_mem_cons.mpr ⟨?_, ?_⟩⟩⟩)
    · exact dotsQuoted_list (List.forall_mem_map.mpr fun p hp =>
        (hparams p hp).dotsQuoted_declaration)
    · exact dotsQuoted_symbol (by decide)
    · exact Ty.dotsQuoted_of_ofDatum hresult
    · exact dotsQuoted_items ihb (List.Subset.refl _)
  | app _ _ iho ihs =>
    rw [literals]
    refine dotsQuoted_list (List.forall_mem_cons.mpr ⟨?_, ?_⟩)
    · exact iho.mono (List.subset_append_left _ _)
    · exact dotsQuoted_items ihs (List.subset_append_right _ _)
  | letIn _ _ _ ihs ihb | letrec _ _ _ ihs ihb =>
    rw [literals]
    refine dotsQuoted_keyword (by decide) (List.forall_mem_cons.mpr ⟨?_, ?_⟩)
    · exact dotsQuoted_list (dotsQuoted_items ihs (List.subset_append_left _ _))
    · exact dotsQuoted_items ihb (List.subset_append_right _ _)
  | quote h => exact dotsQuoted_quote h List.mem_cons_self
  | expression _ ih => exact ih
  | define hdecl _ _ ihv =>
    exact dotsQuoted_keyword (by decide) (List.forall_mem_cons.mpr
      ⟨hdecl.dotsQuoted_declaration, List.forall_mem_singleton.mpr ihv⟩)
  | program _ _ ih =>
    exact dotsQuoted_keyword (by decide) (dotsQuoted_items ih (List.Subset.refl _))

end Exp

/-! ## what can be quoted -/

namespace Datum

variable {d : Datum} {items : List Datum}

theorem dotsBeforeLast_of_checkDots (h : checkDots items = .ok ()) : DotsBeforeLast items := by
  have hne : ∀ d : Datum, d.isDot = false → d ≠ dot := fun d hd heq =>
    Bool.eq_false_iff.mp hd (isDot_eq_true_iff.mpr heq)
  rcases checkDots_eq_ok_iff.mp h with hnone | ⟨front, last, rfl, -, hfront, hlast⟩
  · rw [← List.append_nil items, dotsBeforeLast_append fun d hd => hne d (hnone d hd)]
    exact nofun
  · rw [dotsBeforeLast_append fun d hd => hne d (hfront d hd), dotsBeforeLast_dot_cons]
    exact ⟨last, rfl, hne last hlast⟩

/-- The reader lets no dot out of its place, but for one behind a quote. -/
theorem IsRead.dotsInPlace_iff (h : d.IsRead) (hdot : d ≠ .dot) :
    d.DotsInPlace ↔ ¬(Datum.quote .dot).Within d := by
  refine ⟨fun hplace within => ?_, fun hnone => ⟨hdot, fun items within => ?_⟩⟩
  · exact dotsBeforeLast_quote_iff.mp (hplace.lists _ within) rfl
  · cases h.within within with
    | quote => exact dotsBeforeLast_quote_iff.mpr fun heq => hnone (heq ▸ within)
    | list _ hdots => exact dotsBeforeLast_of_checkDots hdots

end Datum

/-- Dots live in quoted data only, and all but quoted dots can be quoted. Where a form or a program
is built of a source text, each dot in the datum that was read lies in the datum of a literal of the
tree, in front of the last item of a list. A datum that was read, if it is no dot, is a value just
if no dot is quoted in it, on any level. -/
theorem dots_quoted :
    (∀ kind text e, Exp.ofText kind text = .ok e →
      ∃ d, Datum.read text = .ok d ∧ d.DotsQuoted e.literals) ∧
    ∀ text data, Datum.readAll text = .ok data → ∀ d ∈ data, d ≠ .dot →
      ((∃ v, Value.ofDatum d = .ok v) ↔ ¬(Datum.quote .dot).Within d) := by
  refine ⟨fun kind text e h => ?_, fun text data h d hd hdot => ?_⟩
  · obtain ⟨d, hread, hderives⟩ := Exp.ofText_eq_ok_iff.mp h
    exact ⟨d, hread, hderives.dotsQuoted⟩
  · rw [← (Datum.isRead_of_readAll h d hd).dotsInPlace_iff hdot, ← Value.exists_derives_iff]
    exact exists_congr fun v => Value.ofDatum_eq_ok_iff

/-- a quoted pair, and a quoted dot -/
theorem dots_quoted_pair :
    (∃ e d, Exp.ofText .form "'(a . b)" = .ok e ∧ Datum.read "'(a . b)" = .ok d ∧
      d.at? [1, 1] = some .dot ∧ d.IsQuotedPlace e.literals [1, 1]) ∧
    Datum.readAll "'." = .ok [Datum.quote .dot] ∧
      ¬∃ v, Value.ofDatum (Datum.quote .dot) = .ok v := by
  have hscan : Token.scan "'(a . b)" = .ok [⟨.quote, 0, "'"⟩, ⟨.leftParen, 0, "("⟩,
      ⟨.atom (.symbol "a"), 0, "a"⟩, ⟨.dot, 0, "."⟩, ⟨.atom (.symbol "b"), 0, "b"⟩,
      ⟨.rightParen, 0, ")"⟩] := by decide +kernel
  have hread : Datum.read "'(a . b)" =
      .ok (.quote (.list [.symbol "a", .dot, .symbol "b"])) := by
    rw [Datum.read, Datum.readAll, hscan]
    rfl
  have hbuilt : Exp.ofText .form "'(a . b)" =
      .ok (.quote (.cell (.atom (.symbol "a")) (.atom (.symbol "b")))) := by
    rw [Exp.ofText, hread]
    rfl
  have hquoted : Token.scan "'." = .ok [⟨.quote, 0, "'"⟩, ⟨.dot, 0, "."⟩] := by decide +kernel
  have hall : Datum.readAll "'." = .ok [Datum.quote .dot] := by
    rw [Datum.readAll, hquoted]
    rfl
  obtain ⟨d, hd, hdots⟩ := dots_quoted.1 .form "'(a . b)" _ hbuilt
  obtain rfl := Except.ok.inj (hread.symm.trans hd)
  have hvalue := dots_quoted.2 "'." _ hall _ List.mem_cons_self Datum.noConfusion
  exact ⟨⟨_, _, hbuilt, hread, rfl, hdots [1, 1] rfl⟩, hall, fun h => hvalue.mp h .refl⟩

end AnnotatedScheme
