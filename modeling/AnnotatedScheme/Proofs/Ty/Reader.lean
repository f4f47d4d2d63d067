import Mathlib.Data.List.Basic
import AnnotatedScheme.Proofs.Datum.Reader
import AnnotatedScheme.Proofs.Exp.Builder

/-!
# Written types are read back

The text of a type is the text of a datum, `Ty.datum`. When its variables are symbols that are read
as variables, that datum is read back from the text, and the type that it writes down is
`Ty.normal`: the type itself, but that a procedure whose only parameter is `Empty` has lost it. The
text of that procedure type is the one without parameters. A type that was itself read is written
down by the datum that it was read from (`Ty.datum_of_ofDatum`).
-/

namespace AnnotatedScheme

namespace Ty

/-- data with stars between them; `Empty` for none -/
def separated : List Datum → List Datum
  | [] => [.symbol "Empty"]
  | [d] => [d]
  | d :: rest => d :: .symbol "*" :: separated rest

mutual
def datum : Ty → Datum
  | .number => .symbol "number"
  | .boolean => .symbol "boolean"
  | .string => .symbol "string"
  | .void => .symbol "void"
  | .empty => .symbol "Empty"
  | .var name => .symbol name
  | .proc params result => .list (separated (data params) ++ [.symbol "->", result.datum])
  | .pair first second => .list [.symbol "Pair", first.datum, second.datum]
  | .gap => .gap

def data : List Ty → List Datum
  | [] => []
  | t :: rest => t.datum :: data rest
end

mutual
/-- the type without the parameters `Empty` that stand alone -/
def normal : Ty → Ty
  | .proc params result =>
    .proc (if normalAll params = [.empty] then [] else normalAll params) result.normal
  | .pair first second => .pair first.normal second.normal
  | t => t

def normalAll : List Ty → List Ty
  | [] => []
  | t :: rest => t.normal :: normalAll rest
end

mutual
/-- whether some procedure in a type has the only parameter `Empty` -/
def hasLoneEmpty : Ty → Bool
  | .proc params result => params = [.empty] || anyLoneEmpty params || result.hasLoneEmpty
  | .pair first second => first.hasLoneEmpty || second.hasLoneEmpty
  | _ => false

def anyLoneEmpty : List Ty → Bool
  | [] => false
  | t :: rest => t.hasLoneEmpty || anyLoneEmpty rest
end

theorem data_eq_map (ts : List Ty) : data ts = ts.map datum := by
  induction ts with
  | nil => rfl
  | cons t ts ih => rw [data, ih, List.map_cons]

theorem normalAll_eq_map (ts : List Ty) : normalAll ts = ts.map normal := by
  induction ts with
  | nil => rfl
  | cons t ts ih => rw [normalAll, ih, List.map_cons]

theorem anyLoneEmpty_eq_false_iff {ts : List Ty} :
    anyLoneEmpty ts = false ↔ ∀ t ∈ ts, t.hasLoneEmpty = false := by
  induction ts with
  | nil => simp [anyLoneEmpty]
  | cons t rest ih => simp [anyLoneEmpty, ih]

/-! ## text -/

theorem separated_ne_nil (ds : List Datum) : separated ds ≠ [] := by
  fun_cases separated ds <;> exact List.cons_ne_nil _ _

theorem paramsText_map_text (ds : List Datum) :
    paramsText (ds.map Datum.text) = " ".intercalate ((separated ds).map Datum.text) := by
  fun_induction separated ds with
  | case1 => simp [paramsText, Datum.text, Atom.text]
  | case2 d => simp [paramsText]
  | case3 d rest hrest ih =>
    obtain ⟨next, rest, rfl⟩ := List.exists_cons_of_ne_nil hrest
    have hstars : ∀ {x : String} {xs : List String},
        paramsText (x :: xs) = " * ".intercalate (x :: xs) := rfl
    have hne : (separated (next :: rest)).map Datum.text ≠ [] :=
      fun h => separated_ne_nil _ (List.map_eq_nil_iff.mp h)
    rw [List.map_cons] at ih
    rw [List.map_cons, List.map_cons, hstars, String.intercalate_cons_cons, ← hstars, ih,
      List.map_cons, List.map_cons, String.intercalate_cons_cons,
      String.intercalate_cons_of_ne_nil hne]
    refine String.toList_inj.mp ?_
    simp [Datum.text, Atom.text]

theorem text_datum (t : Ty) : t.datum.text = t.text := by
  induction t using Ty.induct with
  | proc params result ihp ihr =>
    have hparams : texts params = (data params).map Datum.text := by
      rw [texts_eq_map, data_eq_map, List.map_map]
      exact List.map_congr_left fun p hp => (ihp p hp).symm
    have hne : (separated (data params)).map Datum.text ≠ [] :=
      fun h => separated_ne_nil _ (List.map_eq_nil_iff.mp h)
    have hlast : [Datum.symbol "->", result.datum].map Datum.text ≠ [] := List.cons_ne_nil _ _
    have hitems : " ".intercalate
        ((separated (data params) ++ [.symbol "->", result.datum]).map Datum.text) =
          paramsText (texts params) ++ " " ++ " ".intercalate ["->", result.text] := by
      rw [List.map_append, String.intercalate_append_of_ne_nil hne hlast, ← paramsText_map_text,
        ← hparams, ← ihr]
      rfl
    rw [datum, Datum.text, Datum.texts_eq_map, hitems, Ty.text]
    refine String.toList_inj.mp ?_
    simp
  | pair first second ihf ihs =>
    rw [datum, Datum.text, Ty.text, ← ihf, ← ihs]
    refine String.toList_inj.mp ?_
    simp [Datum.texts, Datum.text, Atom.text]
  | _ => rfl

theorem normal_eq_empty_iff {t : Ty} : t.normal = .empty ↔ t = .empty := by
  cases t <;> simp [normal]

theorem map_normal_eq_lone {ts : List Ty} : ts.map normal = [.empty] ↔ ts = [.empty] := by
  simp [List.map_eq_singleton_iff, normal_eq_empty_iff]

/-- A type and its normal form have the same text. -/
theorem text_normal (t : Ty) : t.normal.text = t.text := by
  induction t using Ty.induct with
  | proc params result ihp ihr =>
    rw [normal, Ty.text, Ty.text, ihr, normalAll_eq_map]
    split
    · rename_i h
      obtain rfl := map_normal_eq_lone.mp h
      rfl
    · rw [texts_eq_map, texts_eq_map, List.map_map]
      have htexts : params.map (Ty.text ∘ normal) = params.map Ty.text :=
        List.map_congr_left fun p hp => ihp p hp
      rw [htexts]
  | pair first second ihf ihs => rw [normal, Ty.text, Ty.text, ihf, ihs]
  | _ => rfl

theorem normal_eq_self_iff {t : Ty} : t.normal = t ↔ t.hasLoneEmpty = false := by
  induction t using Ty.induct with
  | proc params result ihp ihr =>
    rw [normal, normalAll_eq_map, hasLoneEmpty, Ty.proc.injEq, ihr, Bool.or_eq_false_iff,
      Bool.or_eq_false_iff, anyLoneEmpty_eq_false_iff, decide_eq_false_iff_not]
    refine and_congr_left' ?_
    rw [← forall₂_congr ihp]
    split
    · rename_i h
      obtain rfl := map_normal_eq_lone.mp h
      simp
    · rename_i h
      rw [map_normal_eq_lone] at h
      have hmap : params.map normal = params.map id ↔ ∀ p ∈ params, p.normal = id p :=
        List.map_inj_left
      rw [List.map_id] at hmap
      simp only [h, not_false_eq_true, true_and]
      exact hmap
  | pair first second ihf ihs =>
    rw [normal, hasLoneEmpty, Ty.pair.injEq, ihf, ihs, Bool.or_eq_false_iff]
  | _ => exact iff_of_true rfl rfl

/-! ## reading the datum -/

/-- a variable that is read from a symbol -/
abbrev IsReadName : String → Prop := IsTypeName IsSymbol

theorem IsReadName.isSymbolName {name : String} (h : IsReadName name) :
    isSymbolName name = true := by
  obtain ⟨rfl | h, hread⟩ := h
  · exact absurd hread (by decide)
  · exact h

/-- the separators of a procedure type are no types -/
theorem isSymbol_datum {t : Ty} (h : t.Over IsReadName) {name : String}
    (hname : ofSymbol? name = none) : t.datum.isSymbol name = false := by
  refine Bool.eq_false_iff.mpr fun heq => ?_
  have heq := Datum.isSymbol_iff.mp heq
  cases h with
  | @var x h =>
    obtain rfl := Atom.symbol.inj (Datum.atom.inj heq)
    rw [h.2] at hname
    cases hname
  | proc | pair => cases heq
  | _ =>
    obtain rfl := Atom.symbol.inj (Datum.atom.inj heq)
    exact absurd hname (by decide)

theorem mem_separated {ds : List Datum} {d : Datum} (h : d ∈ separated ds) :
    d ∈ ds ∨ d = .symbol "*" ∨ d = .symbol "Empty" := by
  fun_induction separated ds with
  | case1 => exact .inr (.inr (List.mem_singleton.mp h))
  | case2 => exact .inl h
  | case3 e rest _ ih =>
    rcases List.mem_cons.mp h with rfl | h
    · exact .inl List.mem_cons_self
    rcases List.mem_cons.mp h with rfl | h
    · exact .inr (.inl rfl)
    · exact (ih h).imp_left (List.mem_cons_of_mem e)

theorem mem_separated_of_mem {ds : List Datum} {d : Datum} (h : d ∈ ds) : d ∈ separated ds := by
  fun_induction separated ds with
  | case1 => exact absurd h List.not_mem_nil
  | case2 => exact h
  | case3 e rest _ ih =>
    rcases List.mem_cons.mp h with rfl | h
    · exact List.mem_cons_self
    · exact List.mem_cons_of_mem e (List.mem_cons_of_mem _ (ih h))

theorem Over.readable_datum {t : Ty} (h : t.Over IsReadName) :
    t.datum.Readable ∧ t.datum.isDot = false := by
  refine ⟨?_, isSymbol_datum h (by decide)⟩
  have hsymbol : ∀ {name : String}, isSymbolName name = true →
      (Datum.symbol name).Readable ∧ (Datum.symbol name).isDot = false :=
    fun h => ⟨Datum.readable_symbol h, Datum.isDot_symbol h⟩
  induction h with
  | var h => exact Datum.readable_symbol h.isSymbolName
  | @proc params result hparams hresult ihp ihr =>
    refine Datum.readable_list fun d hd => ?_
    rcases List.mem_append.mp hd with hd | hd
    · rcases mem_separated hd with hd | rfl | rfl
      · rw [data_eq_map] at hd
        obtain ⟨p, hp, rfl⟩ := List.mem_map.mp hd
        exact ⟨ihp p hp, isSymbol_datum (hparams p hp) (by decide)⟩
      · exact hsymbol (by decide)
      · exact hsymbol (by decide)
    · simp only [List.mem_cons, List.not_mem_nil, or_false] at hd
      rcases hd with rfl | rfl
      · exact hsymbol (by decide)
      · exact ⟨ihr, isSymbol_datum hresult (by decide)⟩
  | @pair first second hfirst hsecond ihf ihs =>
    refine Datum.readable_list fun d hd => ?_
    simp only [List.mem_cons, List.not_mem_nil, or_false] at hd
    rcases hd with rfl | rfl | rfl
    · exact hsymbol (by decide)
    · exact ⟨ihf, isSymbol_datum hfirst (by decide)⟩
    · exact ⟨ihs, isSymbol_datum hsecond (by decide)⟩
  | _ => exact Datum.readable_symbol (by decide)

/-! ## the type of the datum -/

theorem wellSeparated_separated {ds : List Datum} (h : ∀ d ∈ ds, d.isSymbol "*" = false) :
    wellSeparated (separated ds) = true := by
  fun_induction separated ds with
  | case1 => decide
  | case2 d => simp [wellSeparated, h d List.mem_cons_self]
  | case3 d rest _ ih =>
    rw [List.forall_mem_cons] at h
    have hstar : (Datum.symbol "*").isSymbol "*" = true := by decide
    rw [wellSeparated, h.1, hstar, ih h.2]
    rfl

/-- the parameters stand in every second place, and the result behind them -/
theorem everySecond_separated (ds : List Datum) (arrow result : Datum) :
    everySecond (separated ds ++ [arrow, result]) =
      (if ds = [] then [.symbol "Empty"] else ds) ++ [result] := by
  fun_induction separated ds with
  | case1 => rfl
  | case2 d => rfl
  | case3 d rest hrest ih =>
    have hne : rest ≠ [] := fun h => hrest h
    rw [List.cons_append, List.cons_append, everySecond, ih, if_neg hne,
      if_neg (List.cons_ne_nil _ _)]
    rfl

theorem brokenRule?_eq_none {ds : List Datum} (hstar : ∀ d ∈ ds, d.isSymbol "*" = false)
    (harrow : ∀ d ∈ ds, d.isSymbol "->" = false) (result : Datum) :
    brokenRule? (separated ds ++ [.symbol "->", result]) = none := by
  have hfront : ∀ d ∈ separated ds, (!d.isSymbol "->") = true := by
    intro d hd
    rcases mem_separated hd with hd | rfl | rfl
    · rw [harrow d hd]
      rfl
    · decide
    · decide
  have htake : (separated ds ++ [.symbol "->", result]).takeWhile (fun d => !d.isSymbol "->") =
      separated ds := by
    rw [List.takeWhile_append_of_pos hfront, List.takeWhile_cons_of_neg (by decide),
      List.append_nil]
  rw [brokenRule?, htake]
  simp [wellSeparated_separated hstar]

theorem isPair_eq_false {ds : List Datum} (h : ∀ d ∈ ds, d.isSymbol "Pair" = false)
    (arrow result : Datum) : isPair (separated ds ++ [arrow, result]) = false := by
  match ds with
  | [] => rfl
  | [d] => exact h d List.mem_cons_self
  | d :: next :: rest =>
    obtain ⟨e, es, hsep⟩ := List.exists_cons_of_ne_nil (separated_ne_nil (next :: rest))
    rw [separated, hsep]
    · cases es <;> rfl
    · exact List.cons_ne_nil next rest

/-- A list with the separators of a procedure type is read as one. -/
theorem ofDatum_list_of_parts {items : List Datum} (hpair : isPair items = false)
    (harrow : items.any (Datum.isSymbol "->") = true) (hrule : brokenRule? items = none)
    {parts : List Ty} (hparts : (everySecond items).map ofDatum = parts.map .ok) :
    ofDatum (.list items) = .ok (procOfParts parts) := by
  have hmap : (everySecond (items.map ofDatum)).mapM id = .ok parts := by
    rw [mapM_eq_ok_iff, List.map_id, everySecond_map, hparts]
  rw [ofDatum, ofEach_eq_map, ofItems, if_pos harrow, hrule]
  · exact Except.bind_eq_ok_iff.mpr ⟨parts, hmap, rfl⟩
  · exact fun _ _ _ h => absurd (hpair.symm.trans h) Bool.false_ne_true

theorem procOfParts_concat (params : List Ty) (result : Ty) :
    procOfParts (params ++ [result]) =
      .proc (if params = [.empty] then [] else params) result := by
  rw [procOfParts, List.dropLast_concat, List.getLastD_concat]

theorem Over.ofDatum_datum {t : Ty} (h : t.Over IsReadName) : ofDatum t.datum = .ok t.normal := by
  induction h with
  | @var x h =>
    rw [datum, ofDatum, ofAtom, h.2]
    rfl
  | @proc params result hparams hresult ihp ihr =>
    have hnot : ∀ {name : String}, ofSymbol? name = none →
        ∀ d ∈ data params, d.isSymbol name = false := by
      intro name hname d hd
      rw [data_eq_map] at hd
      obtain ⟨p, hp, rfl⟩ := List.mem_map.mp hd
      exact isSymbol_datum (hparams p hp) hname
    have hparts : (everySecond (separated (data params) ++ [.symbol "->", result.datum])).map
        ofDatum = ((if params = [] then [.empty] else normalAll params) ++ [result.normal]).map
          .ok := by
      rw [everySecond_separated, List.map_append, List.map_append, List.map_singleton,
        List.map_singleton, ihr]
      congr 1
      -- for no parameters `Empty` is written, and read as a parameter
      cases params with
      | nil => rfl
      | cons p rest =>
        have hdata : data (p :: rest) ≠ [] := List.cons_ne_nil _ _
        rw [if_neg hdata, if_neg (List.cons_ne_nil p rest), data_eq_map, normalAll_eq_map,
          List.map_map, List.map_map]
        exact List.map_congr_left ihp
    have hpair := isPair_eq_false (hnot (by decide)) (.symbol "->") result.datum
    have harrow : (separated (data params) ++ [.symbol "->", result.datum]).any
        (Datum.isSymbol "->") = true := by simp [Datum.isSymbol, Datum.symbol?]
    have hrule := brokenRule?_eq_none (hnot (by decide)) (hnot (by decide)) result.datum
    rw [datum, ofDatum_list_of_parts hpair harrow hrule hparts, procOfParts_concat, normal]
    cases params with
    | nil => rfl
    | cons p rest => rw [if_neg (List.cons_ne_nil _ _)]
  | @pair first second hfirst hsecond ihf ihs =>
    rw [datum, ofDatum, ofEach_eq_map]
    show ofItems _ [_, ofDatum first.datum, ofDatum second.datum] = _
    rw [ihf, ihs]
    rfl
  | _ => rfl

theorem Over.ofText_text {t : Ty} (h : t.Over IsReadName) : ofText t.text = .ok t.normal := by
  rw [ofText, ← text_datum, h.readable_datum.1.spelled.read]
  show (ofDatum t.datum).mapError _ = _
  rw [h.ofDatum_datum]
  rfl

/-! ## the datum of a type that was read -/

theorem exists_separated_of_wellSeparated {items : List Datum} (h : wellSeparated items = true) :
    ∃ ds, ds ≠ [] ∧ items = separated ds := by
  fun_induction wellSeparated items with
  | case1 => cases h
  | case2 d => exact ⟨[d], List.cons_ne_nil _ _, rfl⟩
  | case3 d star rest ih =>
    simp only [Bool.and_eq_true] at h
    obtain ⟨⟨-, hstar⟩, hrest⟩ := h
    obtain ⟨ds, hne, rfl⟩ := ih hrest
    obtain ⟨next, ds, rfl⟩ := List.exists_cons_of_ne_nil hne
    obtain rfl := Datum.isSymbol_iff.mp hstar
    exact ⟨d :: next :: ds, List.cons_ne_nil _ _, rfl⟩

/-- A list that keeps the rule on arrows and stars has parameters between stars, an arrow and a
result. -/
theorem exists_separated_of_brokenRule? {items : List Datum} (h : brokenRule? items = none) :
    ∃ ds result, ds ≠ [] ∧ items = separated ds ++ [.symbol "->", result] := by
  unfold brokenRule? at h
  dsimp only at h
  split at h
  · cases h
  split at h
  · rename_i hlength hseparated
    obtain ⟨ds, hne, hparams⟩ := exists_separated_of_wellSeparated hseparated
    have hitems := items.takeWhile_append_dropWhile (p := fun d => !d.isSymbol "->")
    rw [hparams] at hitems hlength
    have hback : (items.dropWhile fun d => !d.isSymbol "->").length = 2 := by
      have hsum := congrArg List.length hitems
      rw [List.length_append] at hsum
      omega
    obtain ⟨arrow, result, hdrop⟩ := List.length_eq_two.mp hback
    have harrow := List.head_dropWhile_not (fun d : Datum => !d.isSymbol "->")
      (show items.dropWhile (fun d => !d.isSymbol "->") ≠ [] by simp [hdrop])
    simp only [hdrop, List.head_cons, Bool.not_eq_false'] at harrow
    obtain rfl := Datum.isSymbol_iff.mp harrow
    exact ⟨ds, result, hne, by rw [← hdrop, hitems]⟩
  · cases h

/-- A list that is read as a type is a pair type, or has the types of its parameters between stars,
an arrow and the type of its result. -/
theorem ofDatum_list_cases {items : List Datum} {t : Ty} (h : ofDatum (.list items) = .ok t) :
    (∃ b c first second, items = [.symbol "Pair", b, c] ∧ ofDatum b = .ok first ∧
      ofDatum c = .ok second ∧ t = .pair first second) ∨
    ∃ ds types d result, ds ≠ [] ∧ items = separated ds ++ [.symbol "->", d] ∧
      ds.map ofDatum = types.map .ok ∧ ofDatum d = .ok result ∧
      t = .proc (if types = [.empty] then [] else types) result := by
  refine (ofDatum_list_eq_ok h).imp_right fun h => ?_
  obtain ⟨parts, hrule, hmap, rfl⟩ := h
  obtain ⟨ds, d, hne, rfl⟩ := exists_separated_of_brokenRule? hrule
  rw [everySecond_separated, if_neg hne, List.map_append, List.map_singleton] at hmap
  obtain ⟨types, last, rfl, htypes, hlast⟩ := List.map_eq_append_iff.mp hmap.symm
  obtain ⟨result, rfl, hresult⟩ := List.map_eq_singleton_iff.mp hlast
  exact ⟨ds, types, d, result, hne, rfl, htypes.symm, hresult.symm, procOfParts_concat types result⟩

theorem datum_of_ofSymbol? {name : String} {t : Ty} (h : ofSymbol? name = some t) :
    t.datum = .symbol name := by
  unfold ofSymbol? at h
  cases hname : ofName? name with
  | some u =>
    rw [hname] at h
    obtain rfl := Option.some.inj h
    unfold ofName? at hname
    repeat' split at hname
    all_goals first | cases hname; subst_vars; rfl | cases hname
  | none =>
    rw [hname] at h
    dsimp only at h
    split at h
    · cases h
    · obtain rfl := Option.some.inj h
      rfl

/-- The datum of a type that was read is the one that it was read from. -/
theorem datum_of_ofDatum {d : Datum} {t : Ty} (h : ofDatum d = .ok t) : t.datum = d := by
  induction d using Datum.induct generalizing t with
  | atom value =>
    cases value with
    | symbol name =>
      rw [ofDatum, ofAtom] at h
      split at h
      · rename_i u hu
        obtain rfl := Except.ok.inj h
        exact datum_of_ofSymbol? hu
      · cases h
    | _ => cases h
  | list items ih =>
    rcases ofDatum_list_cases h with ⟨b, c, first, second, rfl, hfirst, hsecond, rfl⟩ |
      ⟨ds, types, d, result, hne, rfl, htypes, hresult, rfl⟩
    · rw [datum, ih b (by simp) hfirst, ih c (by simp) hsecond]
    · have hdata : data types = ds := by
        obtain ⟨ps, rfl, rfl, hps⟩ := map_eq_map_iff_pairs.mp htypes
        rw [data_eq_map, List.map_map]
        refine List.map_congr_left fun p hp => ih p.1 (List.mem_append_left _ ?_) (hps p hp)
        exact mem_separated_of_mem (List.mem_map_of_mem hp)
      rw [datum, ih d (by simp) hresult]
      split
      · rename_i hempty
        subst hempty
        rw [← hdata]
        rfl
      · rw [hdata]
  | gap => cases h

end Ty

end AnnotatedScheme
