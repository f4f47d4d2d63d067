import AnnotatedScheme.Proofs.Ty.Reader
import AnnotatedScheme.Proofs.Value.Reader

/-!
# Trees as data

`Exp.datum` is the datum that the text of a tree writes down, `Exp.numbers` lists the numbers in a
tree, those in quoted data included, and `Exp.exact` makes them exact, so that trees are compared by
the values of their numbers.

A derived tree is derived from its own datum (`Exp.Derives.exact_datum`).
-/

namespace AnnotatedScheme

/-- there are only symbols in the datum of a type -/
theorem Ty.mapAtoms_datum {f : Atom → Atom} (hf : ∀ name, f (.symbol name) = .symbol name)
    (t : Ty) : t.datum.mapAtoms f = t.datum := by
  have hlist : ∀ {items : List Datum}, (∀ d ∈ items, d.mapAtoms f = d) →
      (Datum.list items).mapAtoms f = .list items := by
    intro items hitems
    rw [Datum.mapAtoms_list, List.map_congr_left (g := id) hitems, List.map_id]
  have hsymbol : ∀ name, (Datum.symbol name).mapAtoms f = .symbol name := fun name =>
    congrArg Datum.atom (hf name)
  induction t using Ty.induct with
  | proc params result ihp ihr =>
    refine hlist (List.forall_mem_append.mpr ⟨fun d hd => ?_, ?_⟩)
    · rcases mem_separated hd with hd | rfl | rfl
      · rw [data_eq_map] at hd
        obtain ⟨p, hp, rfl⟩ := List.mem_map.mp hd
        exact ihp p hp
      · exact hsymbol "*"
      · exact hsymbol "Empty"
    · exact List.forall_mem_cons.mpr ⟨hsymbol "->", List.forall_mem_singleton.mpr ihr⟩
  | pair first second ihf ihs =>
    refine hlist (List.forall_mem_cons.mpr ⟨hsymbol "Pair", ?_⟩)
    exact List.forall_mem_cons.mpr ⟨ihf, List.forall_mem_singleton.mpr ihs⟩
  | gap => rfl
  | _ => exact hsymbol _

namespace Exp

mutual
def datum : Exp → Datum
  | .number value => .atom (.number value)
  | .boolean value => .atom (.boolean value)
  | .string content => .atom (.string content)
  | .primitive name => .symbol name
  | .var name => .symbol name
  | .conditional test consequent alternative =>
    .list [.symbol "if", test.datum, consequent.datum, alternative.datum]
  | .lambda params result body =>
    .list (.symbol "lambda" :: .list (data params) :: .symbol ":" :: result.datum :: data body)
  | .app operator operands => .list (operator.datum :: data operands)
  | .letIn bindings body => .list (.symbol "let" :: .list (data bindings) :: data body)
  | .letrec bindings body => .list (.symbol "letrec" :: .list (data bindings) :: data body)
  | .quote value => Datum.quote value.datum
  | .define d value => .list [.symbol "define", d.datum, value.datum]
  | .program forms => .list (.symbol "L5" :: data forms)
  | .decl name type => .list [.symbol name, .symbol ":", type.datum]
  | .binding d value => .list [d.datum, value.datum]
  | .gap => .gap

def data : List Exp → List Datum
  | [] => []
  | e :: rest => e.datum :: data rest
end

mutual
/-- the tree with exact numbers -/
def exact : Exp → Exp
  | .number value => .number value.exact
  | .conditional test consequent alternative =>
    .conditional test.exact consequent.exact alternative.exact
  | .lambda params result body => .lambda (exactAll params) result (exactAll body)
  | .app operator operands => .app operator.exact (exactAll operands)
  | .letIn bindings body => .letIn (exactAll bindings) (exactAll body)
  | .letrec bindings body => .letrec (exactAll bindings) (exactAll body)
  | .quote value => .quote value.exact
  | .define d value => .define d.exact value.exact
  | .program forms => .program (exactAll forms)
  | .binding d value => .binding d.exact value.exact
  | e => e

def exactAll : List Exp → List Exp
  | [] => []
  | e :: rest => e.exact :: exactAll rest
end

mutual
/-- the numbers in a tree, from left to right -/
def numbers : Exp → List Number
  | .number value => [value]
  | .conditional test consequent alternative =>
    test.numbers ++ consequent.numbers ++ alternative.numbers
  | .lambda params _ body => numbersAll params ++ numbersAll body
  | .app operator operands => operator.numbers ++ numbersAll operands
  | .letIn bindings body => numbersAll bindings ++ numbersAll body
  | .letrec bindings body => numbersAll bindings ++ numbersAll body
  | .quote value => value.numbers
  | .define d value => d.numbers ++ value.numbers
  | .program forms => numbersAll forms
  | .binding d value => d.numbers ++ value.numbers
  | _ => []

def numbersAll : List Exp → List Number
  | [] => []
  | e :: rest => e.numbers ++ numbersAll rest
end

theorem data_eq_map (es : List Exp) : data es = es.map datum := by
  induction es with
  | nil => rfl
  | cons e rest ih => rw [data, ih, List.map_cons]

theorem exactAll_eq_map (es : List Exp) : exactAll es = es.map exact := by
  induction es with
  | nil => rfl
  | cons e rest ih => rw [exactAll, ih, List.map_cons]

theorem numbersAll_eq_flatMap (es : List Exp) : numbersAll es = es.flatMap numbers := by
  induction es with
  | nil => rfl
  | cons e rest ih => rw [numbersAll, ih, List.flatMap_cons]

/-! ## numbers -/

theorem exact_exact (e : Exp) : e.exact.exact = e.exact := by
  have hall : ∀ {es : List Exp}, (∀ e ∈ es, e.exact.exact = e.exact) →
      exactAll (exactAll es) = exactAll es := by
    intro es hes
    rw [exactAll_eq_map, exactAll_eq_map, List.map_map]
    exact List.map_congr_left hes
  induction e using induct with
  | number value => exact congrArg Exp.number value.exact_exact
  | conditional test consequent alternative iht ihc iha => simp only [exact, iht, ihc, iha]
  | lambda params result body ihp ihb => simp only [exact, hall ihp, hall ihb]
  | app operator operands iho ihs => simp only [exact, iho, hall ihs]
  | letIn bindings body ihs ihb | letrec bindings body ihs ihb =>
    simp only [exact, hall ihs, hall ihb]
  | quote value => exact congrArg Exp.quote value.exact_exact
  | define d value ihd ihv | binding d value ihd ihv => simp only [exact, ihd, ihv]
  | program forms ih => simp only [exact, hall ih]
  | _ => rfl

theorem numbers_exact (e : Exp) : e.exact.numbers = e.numbers.map Number.exact := by
  have hall : ∀ {es : List Exp}, (∀ e ∈ es, e.exact.numbers = e.numbers.map Number.exact) →
      numbersAll (exactAll es) = (numbersAll es).map Number.exact := by
    intro es hes
    rw [numbersAll_eq_flatMap, numbersAll_eq_flatMap, exactAll_eq_map, List.flatMap_map,
      List.map_flatMap]
    exact List.flatMap_congr hes
  induction e using induct with
  | number => rfl
  | conditional test consequent alternative iht ihc iha =>
    simp only [exact, numbers, iht, ihc, iha, List.map_append]
  | lambda params result body ihp ihb =>
    simp only [exact, numbers, hall ihp, hall ihb, List.map_append]
  | app operator operands iho ihs => simp only [exact, numbers, iho, hall ihs, List.map_append]
  | letIn bindings body ihs ihb | letrec bindings body ihs ihb =>
    simp only [exact, numbers, hall ihs, hall ihb, List.map_append]
  | quote value => exact value.numbers_exact
  | define d value ihd ihv | binding d value ihd ihv =>
    simp only [exact, numbers, ihd, ihv, List.map_append]
  | program forms ih => simp only [exact, numbers, hall ih]
  | _ => rfl

/-- Without infinite numbers the datum of a tree is read as it is, but that numbers become exact. -/
theorem reread_datum {e : Exp} (h : ∀ x ∈ e.numbers, x.isInfinite = false) :
    e.datum.reread = e.exact.datum := by
  have hall : ∀ {es : List Exp},
      (∀ e ∈ es, (∀ x ∈ e.numbers, x.isInfinite = false) → e.datum.reread = e.exact.datum) →
        (∀ x ∈ numbersAll es, x.isInfinite = false) →
          (data es).map Datum.reread = data (exactAll es) := by
    intro es hes hnumbers
    rw [numbersAll_eq_flatMap] at hnumbers
    rw [data_eq_map, data_eq_map, exactAll_eq_map, List.map_map, List.map_map]
    refine List.map_congr_left fun e he => hes e he fun x hx => hnumbers x ?_
    exact List.mem_flatMap.mpr ⟨e, he, hx⟩
  have htype : ∀ t : Ty, t.datum.reread = t.datum := Ty.mapAtoms_datum fun _ => rfl
  induction e using induct with
  | number value =>
    exact congrArg Datum.atom (Atom.reread_of_not_isInfinite (h value List.mem_cons_self))
  | conditional test consequent alternative iht ihc iha =>
    simp only [numbers, List.forall_mem_append] at h
    simp only [exact, datum, Datum.reread_list, Datum.reread_symbol, List.map_cons, List.map_nil,
      iht h.1.1, ihc h.1.2, iha h.2]
  | lambda params result body ihp ihb =>
    simp only [numbers, List.forall_mem_append] at h
    simp only [exact, datum, Datum.reread_list, Datum.reread_symbol, List.map_cons, hall ihp h.1,
      hall ihb h.2, htype]
  | app operator operands iho ihs =>
    simp only [numbers, List.forall_mem_append] at h
    simp only [exact, datum, Datum.reread_list, List.map_cons, iho h.1, hall ihs h.2]
  | letIn bindings body ihs ihb | letrec bindings body ihs ihb =>
    simp only [numbers, List.forall_mem_append] at h
    simp only [exact, datum, Datum.reread_list, Datum.reread_symbol, List.map_cons, hall ihs h.1,
      hall ihb h.2]
  | quote value =>
    simp only [exact, datum, Datum.reread_list, Datum.reread_symbol, List.map_cons, List.map_nil,
      Value.reread_datum h]
  | define d value ihd ihv | binding d value ihd ihv =>
    simp only [numbers, List.forall_mem_append] at h
    simp only [exact, datum, Datum.reread_list, Datum.reread_symbol, List.map_cons, List.map_nil,
      ihd h.1, ihv h.2]
  | program forms ih =>
    simp only [exact, datum, Datum.reread_list, Datum.reread_symbol, List.map_cons, hall ih h]
  | decl name type =>
    simp only [exact, datum, Datum.reread_list, Datum.reread_symbol, List.map_cons, List.map_nil,
      htype]
  | _ => rfl

/-- The numbers of a tree stand in the datum that it is derived from. -/
theorem Derives.within_of_mem_numbers {c : Category} {d : Datum} {e : Exp} (h : Derives c d e) :
    ∀ x ∈ e.numbers, (Datum.atom (.number x)).Within d := by
  have hall : ∀ (front : List Datum) {ps : List (Datum × Exp)},
      (∀ p ∈ ps, ∀ x ∈ p.2.numbers, (Datum.atom (.number x)).Within p.1) →
        ∀ x ∈ numbersAll (ps.map Prod.snd),
          (Datum.atom (.number x)).Within (.list (front ++ ps.map Prod.fst)) := by
    intro front ps hps x hx
    rw [numbersAll_eq_flatMap, List.flatMap_map, List.mem_flatMap] at hx
    obtain ⟨p, hp, hx⟩ := hx
    exact .item (List.mem_append_right _ (List.mem_map_of_mem hp)) (hps p hp x hx)
  have hitem : ∀ {items : List Datum} {d : Datum} {e : Exp}, d ∈ items →
      (∀ x ∈ e.numbers, (Datum.atom (.number x)).Within d) →
        ∀ x ∈ e.numbers, (Datum.atom (.number x)).Within (.list items) :=
    fun hd h x hx => .item hd (h x hx)
  induction h with
  | number value => exact List.forall_mem_singleton.mpr .refl
  | binding _ _ ihd ihv | define _ _ ihd ihv =>
    exact List.forall_mem_append.mpr ⟨hitem (by simp) ihd, hitem (by simp) ihv⟩
  | conditional _ _ _ iht ihc iha =>
    exact List.forall_mem_append.mpr ⟨List.forall_mem_append.mpr
      ⟨hitem (by simp) iht, hitem (by simp) ihc⟩, hitem (by simp) iha⟩
  | lambda _ _ _ _ ihp ihb =>
    refine List.forall_mem_append.mpr ⟨fun x hx => ?_, hall [_, _, _, _] ihb⟩
    exact .item (by simp) (hall [] ihp x hx)
  | app _ _ iho ihs =>
    exact List.forall_mem_append.mpr ⟨hitem List.mem_cons_self iho, hall [_] ihs⟩
  | letIn _ _ _ ihs ihb | letrec _ _ _ ihs ihb =>
    refine List.forall_mem_append.mpr ⟨fun x hx => ?_, hall [_, _] ihb⟩
    exact .item (by simp) (hall [] ihs x hx)
  | quote h =>
    intro x hx
    exact .item (by simp) (h.mem_atoms _ (Value.mem_numbers_iff.mp hx)).1
  | expression _ ih => exact ih
  | program _ _ ih => exact hall [_] ih
  | _ => exact List.forall_mem_nil _

/-- A tree is derived from the datum that its text writes down, and so it is with exact numbers. -/
theorem Derives.exact_datum {c : Category} {d : Datum} {e : Exp} (h : Derives c d e) :
    Derives c e.exact.datum e.exact := by
  -- the items of a list with their own data
  have hpairs : ∀ ps : List (Datum × Exp), ∃ qs : List (Datum × Exp),
      data (exactAll (ps.map Prod.snd)) = qs.map Prod.fst ∧
        exactAll (ps.map Prod.snd) = qs.map Prod.snd ∧ (ps ≠ [] → qs ≠ []) ∧
          ∀ c, (∀ p ∈ ps, Derives c p.2.exact.datum p.2.exact) → ∀ q ∈ qs, Derives c q.1 q.2 := by
    intro ps
    refine ⟨ps.map fun p => (p.2.exact.datum, p.2.exact), ?_, ?_, ?_, fun c hps => ?_⟩
    · rw [data_eq_map, exactAll_eq_map, List.map_map, List.map_map, List.map_map]
      rfl
    · rw [exactAll_eq_map, List.map_map, List.map_map]
      rfl
    · exact mt List.map_eq_nil_iff.mp
    · exact List.forall_mem_map.mpr hps
  induction h with
  | decl hx ht =>
    obtain rfl := Ty.datum_of_ofDatum ht
    exact .decl hx ht
  | binding _ _ ihd ihv => exact .binding ihd ihv
  | number value => exact .number value.exact
  | boolean value => exact .boolean value
  | string content => exact .string content
  | primitive h => exact .primitive h
  | var h => exact .var h
  | conditional _ _ _ iht ihc iha => exact .conditional iht ihc iha
  | @lambda params body _ _ _ hresult nonempty _ ihp ihb =>
    obtain rfl := Ty.datum_of_ofDatum hresult
    obtain ⟨ps, hpdata, hps, -, hpderives⟩ := hpairs params
    obtain ⟨bs, hbdata, hbs, hne, hbderives⟩ := hpairs body
    rw [exact, datum, hpdata, hbdata, hps, hbs]
    exact .lambda (hpderives _ ihp) hresult (hne nonempty) (hbderives _ ihb)
  | @app _ _ operands _ _ iho ihs =>
    obtain ⟨ps, hdata, hps, -, hderives⟩ := hpairs operands
    rw [exact, datum, hdata, hps]
    exact .app iho (hderives _ ihs)
  | @letIn bindings body _ nonempty _ ihs ihb =>
    obtain ⟨ps, hpdata, hps, -, hpderives⟩ := hpairs bindings
    obtain ⟨bs, hbdata, hbs, hne, hbderives⟩ := hpairs body
    rw [exact, datum, hpdata, hbdata, hps, hbs]
    exact .letIn (hpderives _ ihs) (hne nonempty) (hbderives _ ihb)
  | @letrec bindings body _ nonempty _ ihs ihb =>
    obtain ⟨ps, hpdata, hps, -, hpderives⟩ := hpairs bindings
    obtain ⟨bs, hbdata, hbs, hne, hbderives⟩ := hpairs body
    rw [exact, datum, hpdata, hbdata, hps, hbs]
    exact .letrec (hpderives _ ihs) (hne nonempty) (hbderives _ ihb)
  | quote h => exact .quote h.exact_datum
  | expression _ ih => exact .expression ih
  | define _ _ ihd ihv => exact .define ihd ihv
  | @program forms nonempty _ ih =>
    obtain ⟨ps, hdata, hps, hne, hderives⟩ := hpairs forms
    rw [exact, datum, hdata, hps]
    exact .program (hne nonempty) (hderives _ ih)

end Exp

end AnnotatedScheme
