import AnnotatedScheme.Proofs.Datum.Read

/-!
# Data survive being written

A datum that was read is read back from its text unless there is an infinite number or a quoted dot
in it (`Datum.read_text_iff_of_readAll`). An infinite number is written like a symbol, and a quoted
dot like a list, while a list may not end with a dot.
-/

namespace AnnotatedScheme

namespace Datum

/-! ## what is read from these texts -/

theorem isFinite_atom {value : Atom} (h : value.isInfinite = false) : (atom value).IsFinite := by
  intro x hx
  cases hx with
  | refl => exact h

theorem not_within_atom (value : Atom) : ¬(Datum.quote Datum.dot).Within (atom value) := nofun

/-- A quotation is no token of a written datum, and an atom stands in the datum. -/
theorem within_of_mem_shapes {d : Datum} {shape : Token.Shape} (h : shape ∈ d.shapes) :
    shape ≠ .quote ∧ ∀ value, shape = .atom value → (Datum.atom value).Within d := by
  induction d using induct with
  | atom value =>
    obtain rfl := List.mem_singleton.mp h
    unfold Atom.shape
    split
    · simp
    · refine ⟨Token.Shape.noConfusion, fun value' heq => ?_⟩
      obtain rfl := Token.Shape.atom.inj heq
      exact .refl
  | list items ih =>
    rw [shapes, shapesAll_eq_flatMap, List.cons_append, List.mem_cons, List.mem_append,
      List.mem_flatMap, List.mem_singleton] at h
    rcases h with rfl | ⟨d, hd, hshape⟩ | rfl
    · simp
    · obtain ⟨hquote, hatom⟩ := ih d hd hshape
      exact ⟨hquote, fun value heq => .item hd (hatom value heq)⟩
    · simp
  | gap => exact absurd h List.not_mem_nil

theorem isDot_of_checkDots_quote {d : Datum} (h : checkDots [symbol "quote", d] = .ok ()) :
    d.isDot = false := by
  rcases checkDots_eq_ok_iff.mp h with h | ⟨front, last, hitems, hne, -⟩
  · exact h d (by simp)
  · have hlength := congrArg List.length hitems
    have hpos := List.length_pos_iff.mpr hne
    simp only [List.length_append, List.length_cons, List.length_nil] at hlength
    omega

/-- the tokens of the text of a datum are those of the datum with its atoms as they are read -/
theorem IsRead.shapes_of_scan {d : Datum} (h : d.IsRead) {tokens : List Token}
    (htokens : Token.scan d.text = .ok tokens) : tokens.map Token.shape = d.reread.shapes := by
  obtain ⟨tokens', line, hmap, hscan⟩ := h.scans [] rfl 0
  have hscan := hscan [] (by rw [Token.scanFrom])
  rw [List.append_nil, List.append_nil, text_reread] at hscan
  rw [Token.scan, hscan] at htokens
  exact Except.ok.inj htokens ▸ hmap

/-- What is read from the text of a datum has neither infinite numbers nor quoted dots. -/
theorem isFinite_of_read_text {d e : Datum} (h : d.IsRead) (hread : read d.text = .ok e) :
    e.IsFinite ∧ ¬(Datum.quote Datum.dot).Within e := by
  obtain ⟨data, hdata, hone⟩ := Except.bind_eq_ok_iff.mp hread
  obtain ⟨tokens, htokens, hdata⟩ := readAll_eq_ok_iff.mp hdata
  have hshape : ∀ token ∈ tokens, token.shape ∈ d.reread.shapes := fun token hmem =>
    h.shapes_of_scan htokens ▸ List.mem_map_of_mem hmem
  have hatom : ∀ token ∈ tokens, ∀ value, token.shape = .atom value →
      (atom value).IsFinite ∧ ¬(Datum.quote Datum.dot).Within (atom value) := by
    intro token hmem value hvalue
    have hwithin := (within_of_mem_shapes (hshape token hmem)).2 value hvalue
    exact ⟨fun x hx => d.isFinite_reread x (hx.trans hwithin), not_within_atom value⟩
  have hquote : ∀ token ∈ tokens, token.shape = .quote → ∀ d : Datum,
      (d.IsFinite ∧ ¬(Datum.quote Datum.dot).Within d) →
        (quote d).IsFinite ∧ ¬(Datum.quote Datum.dot).Within (quote d) := fun token hmem hquote =>
    absurd hquote (within_of_mem_shapes (hshape token hmem)).1
  have hlist : ∀ items : List Datum,
      (∀ d ∈ items, d.IsFinite ∧ ¬(Datum.quote Datum.dot).Within d) → checkDots items = .ok () →
        (list items).IsFinite ∧ ¬(Datum.quote Datum.dot).Within (list items) := by
    intro items hitems hdots
    refine ⟨fun x hx => ?_, fun hquoted => ?_⟩
    · cases hx with
      | item hd within => exact (hitems _ hd).1 x within
    · cases hquoted with
      | refl => exact absurd (isDot_of_checkDots_quote hdots) (by decide)
      | item hd within => exact (hitems _ hd).2 within
  have hdot : dot.IsFinite ∧ ¬(Datum.quote Datum.dot).Within dot :=
    ⟨isFinite_atom rfl, not_within_atom _⟩
  have hall : ∀ e ∈ data, e.IsFinite ∧ ¬(Datum.quote Datum.dot).Within e :=
    forall_of_ofTokensFrom hdot hlist hatom hquote (List.forall_mem_nil _) (List.forall_mem_nil _)
      hdata
  split at hone
  · obtain rfl := Except.ok.inj hone
    exact hall _ List.mem_cons_self
  · cases hone

/-! ## the round trip -/

theorem exact_exact (d : Datum) : d.exact.exact = d.exact := by
  induction d using induct with
  | atom value => exact congrArg Datum.atom value.exact_exact
  | list items ih =>
    rw [exact, mapAtoms_list, mapAtoms_list, List.map_map]
    exact congrArg Datum.list (List.map_congr_left ih)
  | gap => rfl

/-- Data with the same exact numbers have infinite numbers and quoted dots in the same places. -/
theorem IsFinite.of_exact_eq {d e : Datum} (h : e.IsFinite) (heq : e.exact = d.exact) :
    d.IsFinite := by
  intro x hx
  have hwithin : (Datum.atom (.number x.exact)).Within e.exact := heq ▸ hx.mapAtoms Atom.exact
  obtain ⟨part, hpart, hexact⟩ := exists_of_within_mapAtoms hwithin
  rw [← x.isInfinite_exact]
  cases part with
  | atom value =>
    cases value with
    | number y =>
      have hy : y.exact = x.exact := Atom.number.inj (Datum.atom.inj hexact)
      rw [← hy, y.isInfinite_exact]
      exact h y hpart
    | _ => cases hexact
  | list | gap => cases hexact

theorem within_quote_dot_of_exact_eq {d e : Datum} (heq : e.exact = d.exact)
    (h : (Datum.quote Datum.dot).Within d) : (Datum.quote Datum.dot).Within e := by
  have hsymbol : ∀ {name : String} {d : Datum}, d.exact = symbol name ↔ d = symbol name :=
    mapAtoms_eq_symbol_iff fun value => by cases value <;> simp [Atom.exact]
  have hwithin : (Datum.quote Datum.dot).Within e.exact := heq ▸ h.mapAtoms Atom.exact
  obtain ⟨part, hpart, hexact⟩ := exists_of_within_mapAtoms hwithin
  cases part with
  | list items =>
    rw [mapAtoms_list] at hexact
    obtain ⟨a, rest, rfl, ha, hrest⟩ := List.map_eq_cons_iff.mp (Datum.list.inj hexact)
    obtain ⟨b, rfl, hb⟩ := List.map_eq_singleton_iff.mp hrest
    obtain rfl := hsymbol.mp ha
    obtain rfl := hsymbol.mp hb
    exact hpart
  | atom | gap => cases hexact

/-- A datum that was read has a text. From this text the datum is read, numbers compared by value,
if and only if there is neither an infinite number nor a quoted dot in it. -/
theorem read_text_iff_of_readAll {text : String} {data : List Datum} (h : readAll text = .ok data)
    {d : Datum} (hd : d ∈ data) :
    d.gap? = none ∧
      ((∃ e, read d.text = .ok e ∧ e.exact = d.exact) ↔
        (∀ x : Number, (Datum.atom (.number x)).Within d → x.isInfinite = false) ∧
          ¬(Datum.quote Datum.dot).Within d) := by
  have hread := isRead_of_readAll h d hd
  refine ⟨hread.over.gap?, fun hback => ?_, fun hplain => ?_⟩
  · obtain ⟨e, he, heq⟩ := hback
    obtain ⟨hfinite, hquoted⟩ := isFinite_of_read_text hread he
    exact ⟨hfinite.of_exact_eq heq, fun hd => hquoted (within_quote_dot_of_exact_eq heq hd)⟩
  · have hreread : d.reread = d.exact := IsFinite.reread hplain.1
    have hreadable := hread.readable hplain.2
    refine ⟨d.reread, text_reread d ▸ hreadable.spelled.read, ?_⟩
    rw [hreread, exact_exact]

/-- the pair is read back from its text, and the quoted dot is not -/
theorem read_text_dotted_pair :
    readAll "'. (a . \"b\")" =
        .ok [quote dot, .list [symbol "a", dot, .atom (.string "b")]] ∧
      (¬∃ e, read (quote dot).text = .ok e ∧ e.exact = (quote dot).exact) ∧
      ∃ e, read (Datum.list [symbol "a", dot, .atom (.string "b")]).text = .ok e ∧
        e.exact = (Datum.list [symbol "a", dot, .atom (.string "b")]).exact := by
  have h : readAll "'. (a . \"b\")" =
      .ok [quote dot, .list [symbol "a", dot, .atom (.string "b")]] := by
    have hscan : Token.scan "'. (a . \"b\")" = .ok [⟨.quote, 0, "'"⟩, ⟨.dot, 0, "."⟩,
        ⟨.leftParen, 0, "("⟩, ⟨.atom (.symbol "a"), 0, "a"⟩, ⟨.dot, 0, "."⟩,
        ⟨.atom (.string "b"), 0, "\"b\""⟩, ⟨.rightParen, 0, ")"⟩] := by decide +kernel
    rw [readAll, hscan]
    rfl
  have hinside : ∀ {part : Datum},
      part.Within (.list [symbol "a", dot, .atom (.string "b")]) →
        part = .list [symbol "a", dot, .atom (.string "b")] ∨
          part ∈ [symbol "a", dot, .atom (.string "b")] := by
    intro part hpart
    refine (within_list_iff.mp hpart).imp_right fun hitem => ?_
    obtain ⟨d, hd, within⟩ := hitem
    cases within with
    | refl => exact hd
    | item => simp at hd
  refine ⟨h, fun hback => ?_, (read_text_iff_of_readAll h (by simp)).2.mpr ⟨fun x hx => ?_, ?_⟩⟩
  · exact ((read_text_iff_of_readAll h List.mem_cons_self).2.mp hback).2 .refl
  · simpa using hinside hx
  · intro hquoted
    simpa using hinside hquoted

end Datum

end AnnotatedScheme
