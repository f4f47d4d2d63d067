import AnnotatedScheme.Proofs.Datum.Read
import AnnotatedScheme.Proofs.Exp.Grammar

/-!
# Written values are read back

The text of a value is the text of a datum, `Value.datum`, with a dot before an atom that ends a
chain of cells. When the text of each atom is read as an atom, this datum is what is read from the
text, but for its atoms (`Value.spelled_mapAtoms`): atoms as the reader makes them stay the same up
to numbers that are not exact (`Value.spelled`). A value that comes from a datum comes from this one
as well (`Value.Derives.exact_datum`).
-/

namespace AnnotatedScheme

/-! ## data with other atoms -/

namespace Datum

variable {f : Atom → Atom}

/-- The text of a datum spells the datum with other atoms, and that is no dot. -/
structure IsItemUnder (f : Atom → Atom) (d : Datum) : Prop where
  spelled : Spelled d.text (d.mapAtoms f)
  not_dot : (d.mapAtoms f).isDot = false

theorem isItemUnder_atom {value : Atom} (h : value.ReadAs (f value)) :
    (atom value).IsItemUnder f := by
  have hplaces := places_atom (f value)
  rw [Atom.shape, if_neg h.ne_dot] at hplaces
  refine ⟨⟨_, h.scans, hplaces⟩, Bool.eq_false_iff.mpr fun hdot => h.ne_dot ?_⟩
  exact Datum.atom.inj (isDot_eq_true_iff.mp hdot)

theorem spelled_dot (hdot : f (.symbol ".") = .symbol ".") : Spelled dot.text (dot.mapAtoms f) := by
  rw [mapAtoms, hdot]
  exact ⟨_, Token.Scans.dot, places_atom (.symbol ".")⟩

theorem IsItemUnder.list {items : List Datum} (h : ∀ d ∈ items, Spelled d.text (d.mapAtoms f))
    (hdots : checkDots (items.map (mapAtoms f)) = .ok ()) : (Datum.list items).IsItemUnder f := by
  have hmap : (items.map fun d => (d.text, d.mapAtoms f)).map Prod.snd = items.map (mapAtoms f) :=
    List.map_map
  have hlist := Spelled.list (List.forall_mem_map (f := fun d : Datum => (d.text, d.mapAtoms f)).mpr
    h) (hmap ▸ hdots)
  rw [hmap, List.map_map] at hlist
  refine ⟨?_, rfl⟩
  rw [text, texts_eq_map, mapAtoms_list]
  exact hlist

/-- a list without dots -/
theorem IsItemUnder.items {items : List Datum} (h : ∀ d ∈ items, d.IsItemUnder f) :
    (Datum.list items).IsItemUnder f :=
  .list (fun d hd => (h d hd).spelled)
    (checkDots_eq_ok_iff.mpr (.inl (List.forall_mem_map.mpr fun d hd => (h d hd).not_dot)))

end Datum

/-! ## values -/

def Atom.number? : Atom → Option Number
  | .number value => some value
  | _ => none

namespace Value

mutual
def datum : Value → Datum
  | .atom value => .atom value
  | .empty => .list []
  | .cell first second => .list (first.datum :: second.tailData)
  | .gap => .gap

/-- the items behind the first item of a list -/
def tailData : Value → List Datum
  | .atom value => [.dot, .atom value]
  | .empty => []
  | .cell first second => first.datum :: second.tailData
  | .gap => [.dot, .gap]
end

/-- the atoms of a value, from left to right -/
def atoms : Value → List Atom
  | .atom value => [value]
  | .empty => []
  | .cell first second => first.atoms ++ second.atoms
  | .gap => []

def numbers (v : Value) : List Number := v.atoms.filterMap Atom.number?

/-- the value with `f value` in the place of each atom -/
def mapAtoms (f : Atom → Atom) : Value → Value
  | .atom value => .atom (f value)
  | .empty => .empty
  | .cell first second => .cell (first.mapAtoms f) (second.mapAtoms f)
  | .gap => .gap

/-- the value with exact numbers -/
def exact : Value → Value
  | .atom value => .atom value.exact
  | .empty => .empty
  | .cell first second => .cell first.exact second.exact
  | .gap => .gap

/-! ## text -/

theorem text_datum_and_tail (v : Value) :
    v.datum.text = v.text ∧ ∀ front : String,
      " ".intercalate (front :: Datum.texts v.tailData) = front ++ v.tailText := by
  induction v with
  | atom value =>
    refine ⟨rfl, fun front => String.toList_inj.mp ?_⟩
    simp [tailData, tailText, Datum.texts, Datum.text, Atom.text]
  | empty => exact ⟨rfl, fun front => by simp [tailData, tailText, Datum.texts]⟩
  | cell first second ihf ihs =>
    refine ⟨?_, fun front => ?_⟩
    · rw [datum, Datum.text, Datum.texts, ihs.2, ihf.1, text, ← String.append_assoc]
    · rw [tailData, Datum.texts, String.intercalate_cons_cons, ihs.2, ihf.1, tailText]
      simp only [String.append_assoc]
  | gap =>
    refine ⟨rfl, fun front => String.toList_inj.mp ?_⟩
    simp [tailData, tailText, Datum.texts, Datum.text, Atom.text]

theorem text_datum (v : Value) : v.datum.text = v.text := v.text_datum_and_tail.1

/-! ## atoms -/

theorem atoms_asTail (v : Value) : v.asTail.atoms = v.atoms := by
  cases v <;> rfl

/-- The atoms of a value stand in the datum that it is derived from, and are no dots. -/
theorem Derives.mem_atoms {d : Datum} {v : Value} (h : Derives d v) :
    ∀ a ∈ v.atoms, (Datum.atom a).Within d ∧ a ≠ .symbol "." := by
  induction h with
  | atom h => exact List.forall_mem_singleton.mpr ⟨.refl, h⟩
  | gap => exact List.forall_mem_nil _
  | empty => exact List.forall_mem_nil _
  | tail _ ih =>
    rw [atoms_asTail]
    exact fun a ha => ⟨.item (by simp) (ih a ha).1, (ih a ha).2⟩
  | cell _ _ ihf ihs =>
    refine List.forall_mem_append.mpr ⟨fun a ha => ?_, fun a ha => ?_⟩
    · exact ⟨.item List.mem_cons_self (ihf a ha).1, (ihf a ha).2⟩
    · obtain ⟨hwithin, hdot⟩ := ihs a ha
      cases hwithin with
      | item hd within => exact ⟨.item (List.mem_cons_of_mem _ hd) within, hdot⟩

/-! ## other atoms -/

section

variable {f : Atom → Atom}

theorem hasGap_mapAtoms (f : Atom → Atom) (v : Value) : (v.mapAtoms f).hasGap = v.hasGap := by
  induction v with
  | cell first second ihf ihs => rw [mapAtoms, hasGap, hasGap, ihf, ihs]
  | _ => rfl

theorem atoms_mapAtoms (f : Atom → Atom) (v : Value) : (v.mapAtoms f).atoms = v.atoms.map f := by
  induction v with
  | cell first second ihf ihs => rw [mapAtoms, atoms, atoms, ihf, ihs, List.map_append]
  | _ => rfl

theorem mapAtoms_eq_exact {v : Value} (h : ∀ a ∈ v.atoms, f a = a.exact) :
    v.mapAtoms f = v.exact := by
  induction v with
  | atom value => exact congrArg Value.atom (h value List.mem_cons_self)
  | cell first second ihf ihs =>
    rw [atoms, List.forall_mem_append] at h
    rw [mapAtoms, exact, ihf h.1, ihs h.2]
  | _ => rfl

theorem datum_mapAtoms_and_tail (hdot : f (.symbol ".") = .symbol ".") (v : Value) :
    v.datum.mapAtoms f = (v.mapAtoms f).datum ∧
      v.tailData.map (Datum.mapAtoms f) = (v.mapAtoms f).tailData := by
  have hdatum : Datum.dot.mapAtoms f = .dot := congrArg Datum.atom hdot
  induction v with
  | atom value =>
    refine ⟨rfl, ?_⟩
    rw [tailData, List.map_cons, hdatum]
    rfl
  | empty => exact ⟨rfl, rfl⟩
  | cell first second ihf ihs =>
    have hitems : (first.datum :: second.tailData).map (Datum.mapAtoms f) =
        (first.mapAtoms f).datum :: (second.mapAtoms f).tailData := by
      rw [List.map_cons, ihf.1, ihs.2]
    refine ⟨?_, hitems⟩
    rw [datum, Datum.mapAtoms_list]
    exact congrArg Datum.list hitems
  | gap =>
    refine ⟨rfl, ?_⟩
    rw [tailData, List.map_cons, hdatum]
    rfl

end

/-! ## exact numbers -/

theorem atoms_exact (v : Value) : v.exact.atoms = v.atoms.map Atom.exact := by
  rw [← mapAtoms_eq_exact fun _ _ => rfl, atoms_mapAtoms]

theorem numbers_exact (v : Value) : v.exact.numbers = v.numbers.map Number.exact := by
  have hnumber : Atom.number? ∘ Atom.exact = fun a => a.number?.map Number.exact :=
    funext fun a => by cases a <;> rfl
  rw [numbers, numbers, atoms_exact, List.filterMap_map, List.map_filterMap, hnumber]

theorem mem_numbers_iff {v : Value} {x : Number} : x ∈ v.numbers ↔ .number x ∈ v.atoms := by
  have hnumber : ∀ a : Atom, a.number? = some x ↔ a = .number x := by
    intro a
    cases a <;> simp [Atom.number?]
  simp [numbers, List.mem_filterMap, hnumber]

theorem exact_exact (v : Value) : v.exact.exact = v.exact := by
  induction v with
  | atom value => exact congrArg Value.atom value.exact_exact
  | cell first second ihf ihs => rw [exact, exact, ihf, ihs]
  | _ => rfl

theorem asTail_asTail (v : Value) : v.asTail.asTail = v.asTail := by
  cases v <;> rfl

theorem Derives.asTail_of_list {items : List Datum} {v : Value} (h : Derives (.list items) v) :
    v.asTail = v := by
  cases h with
  | empty => rfl
  | tail => exact asTail_asTail _
  | cell => rfl

theorem Derives.exact_datum_and_tail {d : Datum} {v : Value} (h : Derives d v) :
    Derives v.exact.datum v.exact ∧
      Derives (.list v.asTail.exact.tailData) v.asTail.exact := by
  induction h with
  | atom h =>
    have hexact := Derives.atom (mt Atom.exact_eq_dot_iff.mp h)
    exact ⟨hexact, hexact.tail⟩
  | gap => exact ⟨.gap, .empty⟩
  | empty => exact ⟨.empty, .empty⟩
  | @tail d v _ ih =>
    rw [asTail_asTail]
    refine ⟨?_, ih.2⟩
    cases v with
    | gap => exact .empty
    | _ => exact ih.1
  | cell _ hsecond ihf ihs =>
    rw [hsecond.asTail_of_list] at ihs
    exact ⟨.cell ihf.1 ihs.2, .cell ihf.1 ihs.2⟩

/-- A derived value is derived from the datum that its text writes down, and so it is with exact
numbers. -/
theorem Derives.exact_datum {d : Datum} {v : Value} (h : Derives d v) :
    Derives v.exact.datum v.exact :=
  h.exact_datum_and_tail.1

/-- Without infinite numbers the datum is read as it is, but that numbers become exact. -/
theorem reread_datum {v : Value} (h : ∀ x ∈ v.numbers, x.isInfinite = false) :
    v.datum.reread = v.exact.datum := by
  have hatoms : v.mapAtoms Atom.reread = v.exact := by
    refine mapAtoms_eq_exact fun a ha => Atom.reread_of_not_isInfinite ?_
    cases a with
    | number x => exact h x (mem_numbers_iff.mpr ha)
    | _ => rfl
  rw [Datum.reread, (datum_mapAtoms_and_tail rfl v).1, hatoms]

/-! ## reading the text -/

section

variable {f : Atom → Atom}

/-- A tail goes on with a list of items that has been begun. -/
theorem isItemUnder_datum_and_tail {v : Value} (hgap : v.hasGap = false)
    (hdot : f (.symbol ".") = .symbol ".") (hread : ∀ a ∈ v.atoms, a.ReadAs (f a)) :
    v.datum.IsItemUnder f ∧ ∀ front : List Datum, front ≠ [] → (∀ d ∈ front, d.IsItemUnder f) →
      (Datum.list (front ++ v.tailData)).IsItemUnder f := by
  induction v with
  | atom value =>
    have hatom := Datum.isItemUnder_atom (hread value List.mem_cons_self)
    refine ⟨hatom, fun front nonempty hfront => .list ?_ ?_⟩
    · refine List.forall_mem_append.mpr ⟨fun d hd => (hfront d hd).spelled, ?_⟩
      exact List.forall_mem_cons.mpr
        ⟨Datum.spelled_dot hdot, List.forall_mem_singleton.mpr hatom.spelled⟩
    · have hdatum : Datum.dot.mapAtoms f = .dot := congrArg Datum.atom hdot
      rw [tailData, List.map_append, List.map_cons, List.map_cons, hdatum]
      refine Datum.checkDots_eq_ok_iff.mpr (.inr ⟨_, _, rfl, ?_, ?_, hatom.not_dot⟩)
      · exact mt List.map_eq_nil_iff.mp nonempty
      · exact List.forall_mem_map.mpr fun d hd => (hfront d hd).not_dot
  | empty =>
    refine ⟨.items (List.forall_mem_nil _), fun front _ hfront => ?_⟩
    rw [tailData, List.append_nil]
    exact .items hfront
  | cell first second ihf ihs =>
    rw [hasGap, Bool.or_eq_false_iff] at hgap
    rw [atoms, List.forall_mem_append] at hread
    have hfirst := (ihf hgap.1 hread.1).1
    have hsecond := (ihs hgap.2 hread.2).2
    refine ⟨?_, fun front _ hfront => ?_⟩
    · exact hsecond [_] (List.cons_ne_nil _ _) (List.forall_mem_singleton.mpr hfirst)
    · rw [tailData, List.append_cons]
      refine hsecond _ (by simp) (List.forall_mem_append.mpr ⟨hfront, ?_⟩)
      exact List.forall_mem_singleton.mpr hfirst
  | gap => cases hgap

theorem spelled_mapAtoms {v : Value} (hgap : v.hasGap = false)
    (hdot : f (.symbol ".") = .symbol ".") (hread : ∀ a ∈ v.atoms, a.ReadAs (f a)) :
    Datum.Spelled v.text (v.datum.mapAtoms f) := by
  rw [← text_datum]
  exact (isItemUnder_datum_and_tail hgap hdot hread).1.spelled

/-- a written value does not begin with a blank -/
theorem head?_text {v : Value} (hgap : v.hasGap = false) (hread : ∀ a ∈ v.atoms, a.ReadAs (f a)) :
    v.text.toList.head?.any fun c => !isBlank c := by
  cases v with
  | atom value => exact (hread value List.mem_cons_self).head
  | empty => decide
  | cell first second =>
    rw [text, String.toList_append, String.toList_append, String.toList_append]
    rfl
  | gap => cases hgap

end

theorem spelled {v : Value} (hgap : v.hasGap = false) (hread : ∀ a ∈ v.atoms, a.IsRead) :
    Datum.Spelled v.text v.datum.reread :=
  spelled_mapAtoms hgap rfl fun a ha => (hread a ha).readAs

end Value

end AnnotatedScheme
