import AnnotatedScheme.Proofs.Datum.Atom

/-!
# Data that are read, and their texts

* `Datum.IsRead`      the data that the reader makes: dots, quotes, and lists with dots in their
                      place;
* `Datum.reread`      the datum with the atoms that are read from the texts of its own;
* `Datum.exact`       the datum with exact numbers, so that data are compared by the values of
                      numbers;
* `IsRead.scans`      the tokens of the text of a datum that was read;
* `IsRead.readable`   without quoted dots the reader makes the datum of them.
-/

namespace AnnotatedScheme

namespace Datum

/-! ## atoms in data -/

mutual
/-- the datum with `f value` in the place of each atom -/
def mapAtoms (f : Atom → Atom) : Datum → Datum
  | .atom value => .atom (f value)
  | .list items => .list (mapAtomsAll f items)
  | .gap => .gap

def mapAtomsAll (f : Atom → Atom) : List Datum → List Datum
  | [] => []
  | d :: rest => d.mapAtoms f :: mapAtomsAll f rest
end

def exact : Datum → Datum := mapAtoms Atom.exact

def reread : Datum → Datum := mapAtoms Atom.reread

variable {f g : Atom → Atom}

theorem mapAtoms_list (f : Atom → Atom) (items : List Datum) :
    (Datum.list items).mapAtoms f = .list (items.map (mapAtoms f)) := by
  have hall : mapAtomsAll f items = items.map (mapAtoms f) := by
    induction items with
    | nil => rfl
    | cons d rest ih => rw [mapAtomsAll, ih, List.map_cons]
  rw [mapAtoms, hall]

theorem text_mapAtoms (h : ∀ value, (f value).text = value.text) (d : Datum) :
    (d.mapAtoms f).text = d.text := by
  induction d using induct with
  | atom value => exact h value
  | list items ih =>
    rw [mapAtoms_list, text, text, texts_eq_map, texts_eq_map, List.map_map]
    have htexts : items.map (text ∘ mapAtoms f) = items.map text := List.map_congr_left ih
    rw [htexts]
  | gap => rfl

theorem text_reread (d : Datum) : d.reread.text = d.text := text_mapAtoms Atom.text_reread d

theorem Within.mapAtoms {part d : Datum} (h : part.Within d) (f : Atom → Atom) :
    (part.mapAtoms f).Within (d.mapAtoms f) := by
  induction h with
  | refl => exact .refl
  | item hd _ ih =>
    rw [mapAtoms_list]
    exact .item (List.mem_map_of_mem hd) ih

theorem exists_of_within_mapAtoms {p d : Datum} (h : p.Within (d.mapAtoms f)) :
    ∃ part : Datum, part.Within d ∧ part.mapAtoms f = p := by
  induction d using induct with
  | atom value =>
    cases h with
    | refl => exact ⟨_, .refl, rfl⟩
  | list items ih =>
    rw [mapAtoms_list] at h
    cases h with
    | refl => exact ⟨_, .refl, mapAtoms_list f items⟩
    | item hd within =>
      obtain ⟨d, hmem, rfl⟩ := List.mem_map.mp hd
      obtain ⟨part, hpart, rfl⟩ := ih d hmem within
      exact ⟨part, .item hmem hpart, rfl⟩
  | gap =>
    cases h with
    | refl => exact ⟨_, .refl, rfl⟩

theorem mapAtoms_congr {d : Datum} (h : ∀ value, (Datum.atom value).Within d → f value = g value) :
    d.mapAtoms f = d.mapAtoms g := by
  induction d using induct with
  | atom value => exact congrArg _ (h value .refl)
  | list items ih =>
    rw [mapAtoms_list, mapAtoms_list]
    exact congrArg _ (List.map_congr_left fun d hd => ih d hd fun value hv => h value (.item hd hv))
  | gap => rfl

theorem mapAtoms_eq_symbol_iff {name : String} (h : ∀ value, f value = .symbol name ↔
    value = .symbol name) {d : Datum} : d.mapAtoms f = symbol name ↔ d = symbol name := by
  cases d with
  | atom value =>
    rw [mapAtoms, Datum.atom.injEq, Datum.atom.injEq, h]
  | list items => simp [mapAtoms]
  | gap => simp [mapAtoms]

theorem isDot_mapAtoms (h : ∀ value, f value = .symbol "." ↔ value = .symbol ".") (d : Datum) :
    (d.mapAtoms f).isDot = d.isDot := by
  rw [Bool.eq_iff_iff, isDot, isSymbol_iff, isSymbol_iff]
  exact mapAtoms_eq_symbol_iff h

theorem checkDots_mapAtoms (h : ∀ value, f value = .symbol "." ↔ value = .symbol ".")
    (items : List Datum) : checkDots (items.map (mapAtoms f)) = checkDots items := by
  have hdot : isDot ∘ mapAtoms f = isDot := funext (isDot_mapAtoms h)
  rw [checkDots, checkDots, List.countP_map, List.findIdx?_map, List.length_map, hdot]

/-! ## data that are read -/

inductive IsRead : Datum → Prop
  | atom {value : Atom} (h : value.IsRead) : IsRead (.atom value)
  | dot : IsRead dot
  | quote {d : Datum} (h : IsRead d) : IsRead (quote d)
  | list {items : List Datum} (h : ∀ d ∈ items, IsRead d) (hdots : checkDots items = .ok ()) :
      IsRead (.list items)

theorem isRead_of_readAll {text : String} {data : List Datum} (h : readAll text = .ok data) :
    ∀ d ∈ data, d.IsRead :=
  forall_of_readAll .dot (fun _ => .list) (fun _ => .quote)
    (fun _ htokens _ hmem _ hshape => .atom (Token.isRead_of_scanFrom htokens hmem hshape)) h

theorem isRead_of_read {text : String} {d : Datum} (h : read text = .ok d) : d.IsRead := by
  obtain ⟨data, hdata, h⟩ := Except.bind_eq_ok_iff.mp h
  split at h
  · obtain rfl := Except.ok.inj h
    exact isRead_of_readAll hdata _ List.mem_cons_self
  · cases h

theorem IsRead.items {items : List Datum} (h : (Datum.list items).IsRead) :
    ∀ d ∈ items, d.IsRead := by
  cases h with
  | quote h =>
    have hquote : (symbol "quote").IsRead := .atom (show isSymbolName "quote" = true by decide)
    exact List.forall_mem_cons.mpr ⟨hquote, List.forall_mem_singleton.mpr h⟩
  | list h => exact h

theorem IsRead.within {part whole : Datum} (h : whole.IsRead) (within : part.Within whole) :
    part.IsRead := by
  induction within with
  | refl => exact h
  | item hd _ ih => exact ih (h.items _ hd)

/-- the atoms in data that are read are dots and atoms of other tokens -/
theorem IsRead.isRead_atom {value : Atom} (h : (Datum.atom value).IsRead)
    (hdot : value ≠ .symbol ".") : value.IsRead := by
  cases h with
  | atom h => exact h
  | dot => exact absurd rfl hdot

/-- Data that are read have no gaps. -/
theorem IsRead.over {d : Datum} (h : d.IsRead) : d.Over IsSymbol := by
  have hsymbol : ∀ {name : String}, IsSymbol name → (symbol name).Over IsSymbol :=
    fun h => .atom fun _ heq => Atom.symbol.inj heq ▸ h
  induction h with
  | atom h =>
    refine .atom fun name heq => .inr ?_
    subst heq
    exact h
  | dot => exact hsymbol (.inl rfl)
  | quote _ ih =>
    exact .list (List.forall_mem_cons.mpr
      ⟨hsymbol (.inr (by decide)), List.forall_mem_singleton.mpr ih⟩)
  | list _ _ ih => exact .list ih

/-! ## texts of data that are read -/

theorem reread_list (items : List Datum) :
    (Datum.list items).reread = .list (items.map Datum.reread) := mapAtoms_list Atom.reread items

theorem reread_symbol (name : String) : (symbol name).reread = symbol name := rfl

theorem IsRead.scans_atom {value : Atom} (h : value.IsRead) :
    Token.Scans value.reread.text.toList [value.reread.shape] := by
  have hshape : value.reread.shape = .atom value.reread :=
    if_neg (mt Atom.reread_eq_dot_iff.mp h.ne_dot)
  rw [hshape, Atom.text_reread]
  exact h.scans

theorem readable_reread_atom {value : Atom} (h : value.IsRead) :
    (atom value).reread.Readable ∧ (atom value).reread.isDot = false := by
  refine ⟨.atom (IsRead.scans_atom h), Bool.eq_false_iff.mpr fun hdot => h.ne_dot ?_⟩
  exact Atom.reread_eq_dot_iff.mp (Datum.atom.inj (isSymbol_iff.mp hdot))

/-- The text of a datum has the tokens of the datum with its atoms as they are read. -/
theorem IsRead.scans {d : Datum} (h : d.IsRead) :
    Token.Scans d.reread.text.toList d.reread.shapes := by
  induction h with
  | atom h => exact scans_atom h
  | dot => exact Token.Scans.dot
  | @quote d h ih =>
    have hquote : Token.Scans (symbol "quote").text.toList (symbol "quote").shapes :=
      Token.Scans.symbol (by decide)
    rw [reread_list]
    exact scans_list (List.forall_mem_cons.mpr ⟨hquote, List.forall_mem_singleton.mpr ih⟩)
  | list _ _ ih =>
    rw [reread_list]
    exact scans_list (List.forall_mem_map.mpr ih)

/-- Without quoted dots all dots stand where they may stand in a list. -/
theorem IsRead.readable {d : Datum} (h : d.IsRead) (hquoted : ¬(Datum.quote Datum.dot).Within d) :
    d.reread.Readable := by
  induction h with
  | atom h => exact .atom (scans_atom h)
  | dot => exact .atom Token.Scans.dot
  | @quote d h ih =>
    have hd : d.reread.isDot = false := by
      rw [reread, isDot_mapAtoms fun _ => Atom.reread_eq_dot_iff]
      refine Bool.eq_false_iff.mpr fun hdot => hquoted ?_
      exact isDot_eq_true_iff.mp hdot ▸ .refl
    have hread : d.reread.Readable :=
      ih fun hwithin => hquoted (.item (List.mem_cons_of_mem _ List.mem_cons_self) hwithin)
    rw [reread_list]
    refine readable_list (List.forall_mem_cons.mpr
      ⟨⟨readable_symbol (by decide), rfl⟩, List.forall_mem_singleton.mpr ⟨hread, hd⟩⟩)
  | list _ hdots ih =>
    rw [reread_list]
    refine .list (List.forall_mem_map.mpr fun d hd => ih d hd fun hwithin => ?_) ?_
    · exact hquoted (.item hd hwithin)
    · exact (checkDots_mapAtoms (fun _ => Atom.reread_eq_dot_iff) _).trans hdots

/-! ## infinite numbers -/

/-- no infinite number on any level -/
def IsFinite (d : Datum) : Prop :=
  ∀ x : Number, (Datum.atom (.number x)).Within d → x.isInfinite = false

theorem IsFinite.reread {d : Datum} (h : d.IsFinite) : d.reread = d.exact := by
  refine mapAtoms_congr fun value hvalue => Atom.reread_of_not_isInfinite ?_
  cases value with
  | number x => exact h x hvalue
  | _ => rfl

theorem isFinite_reread (d : Datum) : d.reread.IsFinite := by
  intro x hx
  obtain ⟨part, -, hpart⟩ := exists_of_within_mapAtoms hx
  cases part with
  | atom value =>
    have hvalue : value.reread = .number x := Datum.atom.inj hpart
    show (Atom.number x).isInfinite = false
    rw [← hvalue, value.isInfinite_reread]
  | list | gap => cases hpart

end Datum

end AnnotatedScheme
