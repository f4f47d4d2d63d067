import Mathlib.Data.List.Forall2
import AnnotatedScheme.Proofs.Exp.Datum

/-!
# Written trees are read back

The text of a tree that was read spells the datum of the tree, with its atoms as they are read
(`Exp.Derives.spelled`). So the text is always read, and unless there is an infinite number in the
tree, the tree is built of what is read, up to numbers that are not exact
(`Exp.ofText_text_iff`).
-/

namespace AnnotatedScheme

namespace Exp

/-- no dot, and spelled by the text -/
def IsItem (text : String) (d : Datum) : Prop := Datum.Spelled text d ∧ d.isDot = false

theorem isItem_symbol {name : String} (h : isSymbolName name = true) : IsItem name (.symbol name) :=
  ⟨(Datum.readable_symbol h).spelled, Datum.isDot_symbol h⟩

theorem isItem_list {texts : List String} {data : List Datum} (h : List.Forall₂ IsItem texts data) :
    IsItem (listText texts) (.list data) := by
  obtain ⟨ps, rfl, rfl, hps⟩ : ∃ ps : List (String × Datum), texts = ps.map Prod.fst ∧
      data = ps.map Prod.snd ∧ ∀ p ∈ ps, IsItem p.1 p.2 := by
    induction h with
    | nil => exact ⟨[], rfl, rfl, List.forall_mem_nil _⟩
    | cons hp _ ih =>
      obtain ⟨ps, rfl, rfl, hps⟩ := ih
      exact ⟨(_, _) :: ps, rfl, rfl, List.forall_mem_cons.mpr ⟨hp, hps⟩⟩
  refine ⟨.list (fun p hp => (hps p hp).1) ?_, rfl⟩
  exact Datum.checkDots_eq_ok_iff.mpr (.inl (List.forall_mem_map.mpr fun p hp => (hps p hp).2))

/-- the expressions of a body are items of the list around it -/
theorem listText_concat {front body : List String} (nonempty : body ≠ []) :
    listText (front ++ [" ".intercalate body]) = listText (front ++ body) := by
  cases front with
  | nil => simp [listText]
  | cons t ts =>
    have hone : [" ".intercalate body] ≠ [] := List.cons_ne_nil _ _
    rw [listText, listText, String.intercalate_append_of_ne_nil (List.cons_ne_nil t ts) nonempty,
      String.intercalate_append_of_ne_nil (List.cons_ne_nil t ts) hone]
    simp

theorem forall₂_items {es : List Exp} (h : ∀ e ∈ es, IsItem e.text e.datum.reread) :
    List.Forall₂ IsItem (texts es) ((data es).map Datum.reread) := by
  induction es with
  | nil => exact .nil
  | cons e rest ih =>
    rw [List.forall_mem_cons] at h
    exact .cons h.1 (ih h.2)

theorem isItem_body {front : List String} {ds : List Datum} (hfront : List.Forall₂ IsItem front ds)
    {es : List Exp} (nonempty : es ≠ []) (hes : ∀ e ∈ es, IsItem e.text e.datum.reread) :
    IsItem (listText (front ++ [" ".intercalate (texts es)]))
      (.list (ds ++ (data es).map Datum.reread)) := by
  have htexts : texts es ≠ [] := by
    rw [texts_eq_map]
    exact mt List.map_eq_nil_iff.mp nonempty
  rw [listText_concat htexts]
  exact isItem_list (List.rel_append hfront (forall₂_items hes))

theorem isItem_atom {value : Atom} (hvalue : (Datum.atom value).IsRead)
    (hdot : value ≠ .symbol ".") : IsItem value.text (Datum.atom value).reread := by
  obtain ⟨hreadable, hdot⟩ := Datum.readable_reread_atom (hvalue.isRead_atom hdot)
  have hspelled := hreadable.spelled
  rw [Datum.text_reread] at hspelled
  exact ⟨hspelled, hdot⟩

theorem isItem_quote {d : Datum} {v : Value} (hd : d.IsRead) (h : Value.Derives d v) :
    IsItem ("'" ++ v.text) (Datum.quote v.datum).reread := by
  have hgap : v.hasGap = false := (h.over hd.over).hasGap
  have hread : ∀ a ∈ v.atoms, a.IsRead := fun a ha =>
    (hd.within (h.mem_atoms a ha).1).isRead_atom (h.mem_atoms a ha).2
  rw [Datum.reread_list]
  have hstart := Value.head?_text hgap fun a ha => (hread a ha).readAs
  exact ⟨(Value.spelled hgap hread).quote hstart, rfl⟩

theorem isItem_type {type : Datum} {t : Ty} (htype : type.IsRead) (h : Ty.ofDatum type = .ok t) :
    IsItem t.text t.datum.reread := by
  have hreadable := (Ty.over_of_ofDatum htype.over h).readable_datum
  have hreread : t.datum.reread = t.datum := Ty.mapAtoms_datum (fun _ => rfl) t
  rw [hreread, ← Ty.text_datum]
  exact ⟨hreadable.1.spelled, hreadable.2⟩

theorem Derives.spelled {c : Category} {d : Datum} {e : Exp} (h : Derives c d e) (hd : d.IsRead) :
    IsItem e.text e.datum.reread := by
  have hkeyword : ∀ name ∈ ":" :: keywords, IsItem name (.symbol name) := by
    intro name hname
    refine isItem_symbol ?_
    revert name
    decide
  induction h with
  | @decl x type t hx ht =>
    have hname := isItem_atom (hd.items (.symbol x) (by simp)) fun heq =>
      (isVariableName_iff.mp hx).2.2 (Atom.symbol.inj heq)
    have htype := isItem_type (hd.items type (by simp)) ht
    rw [datum, Datum.reread_list]
    exact isItem_list (.cons hname (.cons (hkeyword ":" (by decide)) (.cons htype .nil)))
  | binding _ _ ihd ihv =>
    have hdecl := ihd (hd.items _ (by simp))
    have hvalue := ihv (hd.items _ (by simp))
    rw [datum, Datum.reread_list]
    exact isItem_list (.cons hdecl (.cons hvalue .nil))
  | number | boolean | string => exact isItem_atom hd Atom.noConfusion
  | primitive h =>
    refine isItem_atom hd fun heq => ?_
    rw [Atom.symbol.inj heq] at h
    exact absurd h (by decide)
  | var h => exact isItem_atom hd fun heq => (isVariableName_iff.mp h).2.2 (Atom.symbol.inj heq)
  | conditional _ _ _ iht ihc iha =>
    have htest := iht (hd.items _ (by simp))
    have hconsequent := ihc (hd.items _ (by simp))
    have halternative := iha (hd.items _ (by simp))
    rw [datum, Datum.reread_list]
    exact isItem_list (.cons (hkeyword "if" (by decide))
      (.cons htest (.cons hconsequent (.cons halternative .nil))))
  | @lambda params body result t _ hresult nonempty _ ihp ihb =>
    have hparams := isItem_list (forall₂_items
      (forall_snd_of_items [] (hd.items _ (by simp)).items ihp))
    have htype := isItem_type (hd.items result (by simp)) hresult
    have hfront := List.Forall₂.cons (hkeyword "lambda" (by decide))
      (.cons hparams (.cons (hkeyword ":" (by decide)) (.cons htype .nil)))
    rw [datum, Datum.reread_list, List.map_cons, List.map_cons, Datum.reread_list]
    exact isItem_body hfront (mt List.map_eq_nil_iff.mp nonempty)
      (forall_snd_of_items [_, _, _, _] hd.items ihb)
  | app _ _ iho ihs =>
    have hoperator := iho (hd.items _ List.mem_cons_self)
    rw [datum, Datum.reread_list]
    exact isItem_list (.cons hoperator (forall₂_items (forall_snd_of_items [_] hd.items ihs)))
  | letIn _ nonempty _ ihs ihb =>
    have hbindings := isItem_list (forall₂_items
      (forall_snd_of_items [] (hd.items _ (by simp)).items ihs))
    have hfront := List.Forall₂.cons (hkeyword "let" (by decide)) (.cons hbindings .nil)
    rw [datum, Datum.reread_list, List.map_cons, List.map_cons, Datum.reread_list]
    exact isItem_body hfront (mt List.map_eq_nil_iff.mp nonempty)
      (forall_snd_of_items [_, _] hd.items ihb)
  | letrec _ nonempty _ ihs ihb =>
    have hbindings := isItem_list (forall₂_items
      (forall_snd_of_items [] (hd.items _ (by simp)).items ihs))
    have hfront := List.Forall₂.cons (hkeyword "letrec" (by decide)) (.cons hbindings .nil)
    rw [datum, Datum.reread_list, List.map_cons, List.map_cons, Datum.reread_list]
    exact isItem_body hfront (mt List.map_eq_nil_iff.mp nonempty)
      (forall_snd_of_items [_, _] hd.items ihb)
  | quote h => exact isItem_quote (hd.items _ (by simp)) h
  | expression _ ih => exact ih hd
  | define _ _ ihd ihv =>
    have hdecl := ihd (hd.items _ (by simp))
    have hvalue := ihv (hd.items _ (by simp))
    rw [datum, Datum.reread_list]
    exact isItem_list (.cons (hkeyword "define" (by decide)) (.cons hdecl (.cons hvalue .nil)))
  | program nonempty _ ih =>
    have hfront := List.Forall₂.cons (hkeyword "L5" (by decide)) .nil
    rw [datum, Datum.reread_list]
    exact isItem_body hfront (mt List.map_eq_nil_iff.mp nonempty)
      (forall_snd_of_items [_] hd.items ih)

/-! ## the round trip -/

/-- What the text of a tree that was read is read as. -/
theorem read_text_of_ofText {kind : Kind} {text : String} {e : Exp} (h : ofText kind text = .ok e) :
    Datum.read e.text = .ok e.datum.reread := by
  obtain ⟨d, hread, hderives⟩ := ofText_eq_ok_iff.mp h
  exact (hderives.spelled (Datum.isRead_of_read hread)).1.read

/-- Trees with the same exact numbers have infinite numbers in the same places. -/
theorem isInfinite_of_exact_eq {e e' : Exp} (heq : e'.exact = e.exact)
    (h : ∀ x ∈ e'.numbers, x.isInfinite = false) : ∀ x ∈ e.numbers, x.isInfinite = false := by
  intro x hx
  have hexact : x.exact ∈ e'.exact.numbers := by
    rw [heq, numbers_exact]
    exact List.mem_map_of_mem hx
  rw [numbers_exact] at hexact
  obtain ⟨y, hy, hyx⟩ := List.mem_map.mp hexact
  rw [← x.isInfinite_exact, ← hyx, y.isInfinite_exact]
  exact h y hy

/-- A tree that was read has a text. From this text the tree is read, numbers compared by value, if
and only if there is no infinite number in it. -/
theorem ofText_text_iff {kind : Kind} {text : String} {e : Exp} (h : ofText kind text = .ok e) :
    e.written = .ok e.text ∧
      ((∃ e', ofText kind e.text = .ok e' ∧ e'.exact = e.exact) ↔
        ∀ x ∈ e.numbers, x.isInfinite = false) := by
  have hread := read_text_of_ofText h
  have hgap : e.gap? = none := (isProgram_of_ofText h).gap?
  refine ⟨Gap.orText_of_eq_none hgap e.text, fun hback => ?_, fun hfinite => ?_⟩
  · obtain ⟨e', he', heq⟩ := hback
    obtain ⟨d, hd, hderives⟩ := ofText_eq_ok_iff.mp he'
    obtain rfl := Except.ok.inj (hread.symm.trans hd)
    refine isInfinite_of_exact_eq heq fun x hx => ?_
    exact e.datum.isFinite_reread x (hderives.within_of_mem_numbers x hx)
  · obtain ⟨d, -, hderives⟩ := ofText_eq_ok_iff.mp h
    rw [reread_datum hfinite] at hread
    exact ⟨e.exact, ofText_eq_ok_iff.mpr ⟨_, hread, hderives.exact_datum⟩, e.exact_exact⟩

/-- The double `5.0` is written like the whole number and keeps its value; an infinite number is
written like a variable. -/
theorem ofText_text_operand :
    (∃ e, ofText .form "(f 5.0)" = .ok e ∧ e.text = "(f 5)" ∧
      ∃ e', ofText .form e.text = .ok e' ∧ e'.exact = e.exact) ∧
    ∃ e, ofText .form "(f 1e400)" = .ok e ∧ e.text = "(f inf)" ∧
      ¬∃ e', ofText .form e.text = .ok e' ∧ e'.exact = e.exact := by
  have hbuilt : ∀ {text : String} (lexeme : String) {x : Number},
      Token.scan text = .ok [⟨.leftParen, 0, "("⟩, ⟨.atom (.symbol "f"), 0, "f"⟩,
        ⟨.atom (.number x), 0, lexeme⟩, ⟨.rightParen, 0, ")"⟩] →
      ofText .form text = .ok (.app (.var "f") [.number x]) := by
    intro text lexeme x hscan
    rw [ofText, Datum.read, Datum.readAll, hscan]
    rfl
  let five : Number := .double (.finite false ⟨5 * twoPow 50, 1024, by decide⟩)
  let infinite : Number := .double (.infinite false)
  have hfive : ofText .form "(f 5.0)" = .ok (.app (.var "f") [.number five]) :=
    hbuilt "5.0" (by decide +kernel)
  have hinfinite : ofText .form "(f 1e400)" = .ok (.app (.var "f") [.number infinite]) :=
    hbuilt "1e400" (by decide +kernel)
  refine ⟨⟨_, hfive, by decide +kernel, (ofText_text_iff hfive).2.mpr (by decide)⟩,
    _, hinfinite, by decide +kernel, fun hback => ?_⟩
  have hall := (ofText_text_iff hinfinite).2.mp hback
  exact absurd (hall infinite List.mem_cons_self) (by decide)

end Exp

end AnnotatedScheme
