import AnnotatedScheme.Proofs.Exp.Fault
import AnnotatedScheme.Proofs.Ty.Reader

/-!
# The grammar of types

`Ty.Derives d t` says that the datum `d` is an annotation for the type `t`:

    t ::= number | boolean | string | void | Empty | any symbol but these and -> * Pair : .
        | (Pair t t) | (Empty -> t) | (t * ... * t -> t)

A parameter `Empty` by itself stands for no parameters. The reader accepts just these data, all
others break a rule, and what was accepted is printed as it was written (`ofDatum_iff_derives`).
-/

namespace AnnotatedScheme.Ty

/-- the items of the first list with stars between them, an arrow and a result -/
abbrev arrow (params : List Datum) (result : Datum) : Datum :=
  .list (params.intersperse (.symbol "*") ++ [.symbol "->", result])

inductive Derives : Datum → Ty → Prop
  | number : Derives (.symbol "number") .number
  | boolean : Derives (.symbol "boolean") .boolean
  | string : Derives (.symbol "string") .string
  | void : Derives (.symbol "void") .void
  | empty : Derives (.symbol "Empty") .empty
  | var {name : String} (hname : name ∉ ["number", "boolean", "string", "void", "Empty"])
      (hreserved : name ∉ ["->", "*", "Pair", ":", "."]) : Derives (.symbol name) (.var name)
  | pair {a b : Datum} {first second : Ty} (hfirst : Derives a first) (hsecond : Derives b second) :
      Derives (.list [.symbol "Pair", a, b]) (.pair first second)
  | thunk {d : Datum} {result : Ty} (hresult : Derives d result) :
      Derives (arrow [.symbol "Empty"] d) (.proc [] result)
  | proc {ps : List (Datum × Ty)} {d : Datum} {result : Ty} (hne : ps ≠ [])
      (hempty : ps.map Prod.fst ≠ [.symbol "Empty"]) (hparams : ∀ p ∈ ps, Derives p.1 p.2)
      (hresult : Derives d result) :
      Derives (arrow (ps.map Prod.fst) d) (.proc (ps.map Prod.snd) result)

variable {d : Datum} {t : Ty}

/-! ## symbols -/

theorem derives_of_ofSymbol? {name : String} (h : ofSymbol? name = some t) :
    Derives (.symbol name) t := by
  unfold ofSymbol? at h
  cases hname : ofName? name with
  | some u =>
    rw [hname] at h
    obtain rfl := Option.some.inj h
    unfold ofName? at hname
    repeat' split at hname
    all_goals first | cases hname; subst_vars; constructor | cases hname
  | none =>
    rw [hname] at h
    dsimp only at h
    split at h
    · cases h
    · rename_i hreserved
      obtain rfl := Option.some.inj h
      refine .var (fun hmem => ?_) (by simpa [reservedNames] using hreserved)
      have hall : ∀ x ∈ ["number", "boolean", "string", "void", "Empty"], ofName? x ≠ none := by
        decide
      exact hall name hmem hname

theorem ofSymbol?_of_not_mem {name : String}
    (hname : name ∉ ["number", "boolean", "string", "void", "Empty"])
    (hreserved : name ∉ ["->", "*", "Pair", ":", "."]) : ofSymbol? name = some (.var name) := by
  have hnone : ofName? name = none := by
    simp only [List.mem_cons, List.not_mem_nil, or_false, not_or] at hname
    obtain ⟨hnumber, hboolean, hstring, hvoid, hempty⟩ := hname
    rw [ofName?, if_neg hnumber, if_neg hboolean, if_neg hstring, if_neg hvoid, if_neg hempty]
  have hfree : reservedNames.contains name = false := by
    rw [Bool.eq_false_iff, Ne, List.contains_iff_mem]
    exact hreserved
  rw [ofSymbol?, hnone]
  dsimp only
  rw [hfree]
  rfl

/-- what is reserved is no type -/
theorem Derives.isSymbol_eq_false (h : Derives d t) {name : String}
    (hname : name ∈ ["->", "*", "Pair", ":", "."]) : d.isSymbol name = false := by
  refine Bool.eq_false_iff.mpr fun heq => ?_
  obtain rfl := Datum.isSymbol_iff.mp heq
  generalize hd : Datum.symbol name = d at h
  cases h with
  | var _ hreserved =>
    obtain rfl := Atom.symbol.inj (Datum.atom.inj hd)
    exact hreserved hname
  | pair | thunk | proc => cases hd
  | _ =>
    obtain rfl := Atom.symbol.inj (Datum.atom.inj hd)
    exact absurd hname (by decide)

theorem derives_empty_iff : Derives d .empty ↔ d = .symbol "Empty" := by
  constructor
  · intro h
    cases h
    rfl
  · rintro rfl
    exact .empty

theorem Derives.eq_empty (h : Derives (.symbol "Empty") t) : t = .empty := by
  generalize hd : Datum.symbol "Empty" = d at h
  cases h with
  | empty => rfl
  | var hname =>
    obtain rfl := Atom.symbol.inj (Datum.atom.inj hd)
    exact absurd (by decide) hname
  | pair | thunk | proc => cases hd
  | _ => exact absurd (Atom.symbol.inj (Datum.atom.inj hd)) (by decide)

/-- the only parameter is written `Empty` if it is `Empty` -/
theorem map_snd_eq_empty_iff {ps : List (Datum × Ty)} (h : ∀ p ∈ ps, Derives p.1 p.2) :
    ps.map Prod.snd = [.empty] ↔ ps.map Prod.fst = [.symbol "Empty"] := by
  constructor
  · intro heq
    obtain ⟨⟨d, t⟩, rfl, rfl⟩ := List.map_eq_singleton_iff.mp heq
    obtain rfl := derives_empty_iff.mp (h (d, .empty) List.mem_cons_self)
    rfl
  · intro heq
    obtain ⟨⟨d, t⟩, rfl, rfl⟩ := List.map_eq_singleton_iff.mp heq
    obtain rfl := (h (.symbol "Empty", t) List.mem_cons_self).eq_empty
    rfl

/-! ## lists -/

theorem separated_eq_intersperse {ds : List Datum} (hne : ds ≠ []) :
    separated ds = ds.intersperse (.symbol "*") := by
  fun_induction separated ds with
  | case1 => exact absurd rfl hne
  | case2 => rfl
  | case3 d rest hrest ih =>
    obtain ⟨next, rest, rfl⟩ := List.exists_cons_of_ne_nil hrest
    rw [ih (List.cons_ne_nil _ _), List.intersperse_cons_cons]

theorem mem_arrow {ds : List Datum} {result item : Datum} (hne : ds ≠ [])
    (h : item ∈ ds.intersperse (.symbol "*") ++ [.symbol "->", result]) :
    item ∈ ds ∨ item = result ∨ ∃ name, item = .symbol name := by
  rcases List.mem_append.mp h with h | h
  · rw [← separated_eq_intersperse hne] at h
    rcases mem_separated h with h | rfl | rfl
    · exact .inl h
    · exact .inr (.inr ⟨_, rfl⟩)
    · exact .inr (.inr ⟨_, rfl⟩)
  · rcases List.mem_cons.mp h with rfl | h
    · exact .inr (.inr ⟨_, rfl⟩)
    · exact .inr (.inl (List.mem_singleton.mp h))

/-- A list of types with their separators is read as a procedure type. -/
theorem ofDatum_arrow {ds : List Datum} {types : List Ty} {result : Datum} {t : Ty} (hne : ds ≠ [])
    (hitems : ∀ d ∈ ds, ∀ name ∈ ["->", "*", "Pair", ":", "."], d.isSymbol name = false)
    (htypes : ds.map ofDatum = types.map .ok) (hresult : ofDatum result = .ok t) :
    ofDatum (arrow ds result) = .ok (.proc (if types = [.empty] then [] else types) t) := by
  have hpair := isPair_eq_false (fun d hd => hitems d hd "Pair" (by decide)) (.symbol "->") result
  have hany : (separated ds ++ [.symbol "->", result]).any (Datum.isSymbol "->") = true := by
    simp [Datum.isSymbol, Datum.symbol?]
  have hrule := brokenRule?_eq_none (fun d hd => hitems d hd "*" (by decide))
    (fun d hd => hitems d hd "->" (by decide)) result
  have hparts : (everySecond (separated ds ++ [.symbol "->", result])).map ofDatum =
      (types ++ [t]).map .ok := by
    rw [everySecond_separated, if_neg hne, List.map_append, List.map_append, htypes,
      List.map_singleton, hresult, List.map_singleton]
  rw [arrow, ← separated_eq_intersperse hne, ofDatum_list_of_parts hpair hany hrule hparts,
    procOfParts_concat]

/-! ## reading -/

theorem Derives.ofDatum (h : Derives d t) : ofDatum d = .ok t := by
  induction h with
  | @var name hname hreserved =>
    rw [Ty.ofDatum, ofAtom, ofSymbol?_of_not_mem hname hreserved]
  | @pair a b first second _ _ ihf ihs =>
    rw [Ty.ofDatum, ofEach_eq_map]
    show ofItems _ [_, Ty.ofDatum a, Ty.ofDatum b] = _
    rw [ihf, ihs]
    rfl
  | thunk _ ih =>
    have hitems : ∀ d ∈ [Datum.symbol "Empty"], ∀ name ∈ ["->", "*", "Pair", ":", "."],
        d.isSymbol name = false := by decide
    have htypes : [Datum.symbol "Empty"].map Ty.ofDatum = [.empty].map .ok := rfl
    exact ofDatum_arrow (List.cons_ne_nil _ _) hitems htypes ih
  | @proc ps d result hne hempty hparams _ ihp ihr =>
    have htypes : (ps.map Prod.fst).map Ty.ofDatum = (ps.map Prod.snd).map .ok := by
      rw [List.map_map, List.map_map]
      exact List.map_congr_left ihp
    have hread := ofDatum_arrow (fun h => hne (List.map_eq_nil_iff.mp h))
      (List.forall_mem_map.mpr fun p hp name hname => (hparams p hp).isSymbol_eq_false hname)
      htypes ihr
    rw [hread, if_neg fun heq => hempty ((map_snd_eq_empty_iff hparams).mp heq)]
  | _ => rfl

theorem derives_of_ofDatum (h : ofDatum d = .ok t) : Derives d t := by
  induction d using Datum.induct generalizing t with
  | atom value =>
    cases value with
    | symbol name =>
      rw [Ty.ofDatum, ofAtom] at h
      split at h
      · rename_i u hu
        obtain rfl := Except.ok.inj h
        exact derives_of_ofSymbol? hu
      · cases h
    | _ => cases h
  | list items ih =>
    rcases ofDatum_list_cases h with ⟨b, c, first, second, rfl, hfirst, hsecond, rfl⟩ |
      ⟨ds, types, d, result, hne, rfl, htypes, hresult, rfl⟩
    · exact .pair (ih b (by simp) hfirst) (ih c (by simp) hsecond)
    · obtain ⟨ps, rfl, rfl, hps⟩ := map_eq_map_iff_pairs.mp htypes
      have hparams : ∀ p ∈ ps, Derives p.1 p.2 := by
        intro p hp
        have hitem := mem_separated_of_mem (List.mem_map_of_mem (f := Prod.fst) hp)
        exact ih p.1 (List.mem_append_left _ hitem) (hps p hp)
      have hresult := ih d (by simp) hresult
      rw [separated_eq_intersperse hne]
      by_cases hempty : ps.map Prod.fst = [.symbol "Empty"]
      · rw [if_pos ((map_snd_eq_empty_iff hparams).mpr hempty), hempty]
        exact .thunk hresult
      · rw [if_neg fun heq => hempty ((map_snd_eq_empty_iff hparams).mp heq)]
        exact .proc (fun h => hne (List.map_eq_nil_iff.mpr h)) hempty hparams hresult
  | gap => cases h

/-! ## text -/

theorem Derives.gap? (h : Derives d t) : d.gap? = none := by
  have harrow : ∀ {ds : List Datum} {result : Datum}, ds ≠ [] → (∀ d ∈ ds, d.gap? = none) →
      result.gap? = none → (arrow ds result).gap? = none := by
    intro ds result hne hds hresult
    refine (Datum.firstGap?_eq_none_iff _).mpr fun item hitem => ?_
    rcases mem_arrow hne hitem with hitem | rfl | ⟨name, rfl⟩
    · exact hds item hitem
    · exact hresult
    · rfl
  induction h with
  | pair _ _ ihf ihs =>
    refine (Datum.firstGap?_eq_none_iff _).mpr fun item hitem => ?_
    simp only [List.mem_cons, List.not_mem_nil, or_false] at hitem
    rcases hitem with rfl | rfl | rfl
    · rfl
    · exact ihf
    · exact ihs
  | thunk _ ih => exact harrow (List.cons_ne_nil _ _) (by decide) ih
  | proc hne _ _ _ ihp ihr =>
    exact harrow (fun h => hne (List.map_eq_nil_iff.mp h)) (List.forall_mem_map.mpr ihp) ihr
  | _ => rfl

theorem Derives.written (h : Derives d t) : t.written = .ok d.text := by
  have hover := over_of_ofDatum (Datum.over_of_gap? h.gap?) h.ofDatum
  rw [Ty.written, hover.gap?, ← text_datum, datum_of_ofDatum h.ofDatum]
  rfl

/-! ## the grammar -/

/-- The annotations for types are just the data that the grammar derives, and each type is printed
as it was written; every other datum without gaps ends with an error that has a message. -/
theorem ofDatum_iff_derives (d : Datum) :
    (∀ t, Ty.ofDatum d = .ok t ↔ Derives d t) ∧
      (∀ t, Ty.ofDatum d = .ok t → d.gap? = none ∧ t.written = .ok d.text) ∧
      (d.gap? = none → ((¬∃ t, Derives d t) ↔
        ∃ e message, Ty.ofDatum d = .error e ∧ e.message = .ok message)) := by
  refine ⟨fun t => ⟨derives_of_ofDatum, Derives.ofDatum⟩, fun t h => ?_, fun hd => ?_⟩
  · have hderives := derives_of_ofDatum h
    exact ⟨hderives.gap?, hderives.written⟩
  constructor
  · intro h
    cases hread : Ty.ofDatum d with
    | ok t => exact absurd ⟨t, derives_of_ofDatum hread⟩ h
    | error e =>
      have hwithin := failsWith_ofDatum d e hread
      have hgap := ((Datum.over_of_gap? hd).within hwithin.datum).gap?
      exact ⟨e, _, rfl, Gap.orText_of_eq_none hgap _⟩
  · rintro ⟨e, message, herror, -⟩ ⟨t, h⟩
    rw [h.ofDatum] at herror
    cases herror

/-- `((Pair T number) * (Empty -> Empty) -> T)` -/
def pairAndThunk : Datum :=
  .list [.list [.symbol "Pair", .symbol "T", .symbol "number"], .symbol "*",
    .list [.symbol "Empty", .symbol "->", .symbol "Empty"], .symbol "->", .symbol "T"]

/-- `(Pair -> *)`, which has the form of a pair type -/
def pairOfSeparators : Datum := .list [.symbol "Pair", .symbol "->", .symbol "*"]

theorem ofDatum_pairAndThunk :
    Derives pairAndThunk (.proc [.pair (.var "T") .number, .proc [] .empty] (.var "T")) ∧
      (Ty.proc [.pair (.var "T") .number, .proc [] .empty] (.var "T")).written =
        .ok "((Pair T number) * (Empty -> Empty) -> T)" ∧
      ¬∃ t, Derives pairOfSeparators t := by
  have hread : Ty.ofDatum pairAndThunk =
      .ok (.proc [.pair (.var "T") .number, .proc [] .empty] (.var "T")) := rfl
  have htext : pairAndThunk.text = "((Pair T number) * (Empty -> Empty) -> T)" := by decide +kernel
  have herror : Ty.ofDatum pairOfSeparators = .error ⟨.type, .symbol "->"⟩ := rfl
  obtain ⟨hiff, hwritten, -⟩ := ofDatum_iff_derives pairAndThunk
  refine ⟨(hiff _).mp hread, htext ▸ (hwritten _ hread).2, ?_⟩
  exact ((ofDatum_iff_derives pairOfSeparators).2.2 rfl).mpr ⟨_, _, herror, rfl⟩

end AnnotatedScheme.Ty
