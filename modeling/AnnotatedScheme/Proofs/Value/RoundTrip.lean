import AnnotatedScheme.Proofs.Datum.WholeNumber
import AnnotatedScheme.Proofs.Value.Reader

/-!
# Quoted values are read back

A value that is built of atoms with texts of their own, `Value.IsBuilt`, is read back from its text,
alone or behind a quote, wherever the chains of cells in it end. The one thing that can be lost is
the size of a number: a whole number beyond the range of doubles is read as an infinite one
(`Number.back`). So just the values without such numbers come back as they are
(`Value.reads_back_iff_of_isBuilt`).
-/

namespace AnnotatedScheme

/-! ## atoms -/

/-- what is read from the text of a finite number -/
def Number.back : Number → Number
  | .int value => .ofWhole value
  | .double value => exact (.double value)

namespace Atom

/-- finite numbers, booleans, strings, and symbols other than dots that are read as what they are -/
def IsBuilt : Atom → Prop
  | .number x => x.units?.isSome
  | .boolean _ => True
  | .string _ => True
  | .symbol name => name ≠ "." ∧ Datum.read name = .ok (.symbol name)

/-- what is read from the text of such an atom -/
def back : Atom → Atom
  | .number x => .number x.back
  | value => value

theorem isSymbolName_of_read {name : String} (hdot : name ≠ ".")
    (h : Datum.read name = .ok (.symbol name)) : isSymbolName name = true :=
  (Datum.isRead_of_read h).isRead_atom fun heq => hdot (Atom.symbol.inj heq)

theorem IsBuilt.readAs {value : Atom} (h : value.IsBuilt) : value.ReadAs value.back := by
  have hread : value.IsRead → value.isInfinite = false → value.ReadAs value.exact := by
    intro hread hfinite
    have hself := hread.readAs
    rwa [reread_of_not_isInfinite hfinite] at hself
  match value, h with
  | .number (.int value), _ => exact readAs_int value
  | .number (.double (.finite negative size)), _ => exact hread Double.noConfusion rfl
  | .boolean _, _ => exact hread trivial rfl
  | .string _, _ => exact hread trivial rfl
  | .symbol name, h => exact hread (isSymbolName_of_read h.1 h.2) rfl

theorem exact_back_eq_iff {value : Atom} :
    value.back.exact = value.exact ↔
      ∀ n, value = .number (.int n) → n.natAbs < Double.overflowThreshold := by
  match value with
  | .number (.int n) =>
    have hexact : (Number.ofWhole n).exact = .int n ↔ Number.ofWhole n = .int n := by
      unfold Number.ofWhole
      split <;> exact Iff.rfl
    have hvalue : (Atom.number (.int n)).back.exact = (Atom.number (.int n)).exact ↔
        (Number.ofWhole n).exact = .int n :=
      ⟨Atom.number.inj, congrArg Atom.number⟩
    rw [hvalue, hexact, Number.ofWhole_eq_int_iff]
    refine ⟨fun h m hm => ?_, fun h => h n rfl⟩
    obtain rfl := Number.int.inj (Atom.number.inj hm)
    exact h
  | .number (.double x) =>
    exact iff_of_true (congrArg Atom.number (Number.exact_exact (.double x))) fun _ h =>
      Number.noConfusion (Atom.number.inj h)
  | .boolean _ | .string _ | .symbol _ => exact iff_of_true rfl fun _ h => Atom.noConfusion h

end Atom

/-! ## values -/

namespace Value

/-- built of these atoms, the empty list and cells -/
inductive IsBuilt : Value → Prop
  | atom {value : Atom} (h : value.IsBuilt) : IsBuilt (.atom value)
  | empty : IsBuilt .empty
  | cell {first second : Value} (hfirst : IsBuilt first) (hsecond : IsBuilt second) :
      IsBuilt (.cell first second)

def back (v : Value) : Value := v.mapAtoms Atom.back

/-- A value without gaps and dots comes from the datum that its text writes down. -/
theorem derives_datum_and_tail {v : Value} (hgap : v.hasGap = false)
    (hdot : ∀ a ∈ v.atoms, a ≠ .symbol ".") :
    Derives v.datum v ∧ Derives (.list v.tailData) v := by
  induction v with
  | atom value =>
    have hatom := Derives.atom (hdot value List.mem_cons_self)
    exact ⟨hatom, hatom.tail⟩
  | empty => exact ⟨.empty, .empty⟩
  | cell first second ihf ihs =>
    rw [hasGap, Bool.or_eq_false_iff] at hgap
    rw [atoms, List.forall_mem_append] at hdot
    have hcell := Derives.cell (ihf hgap.1 hdot.1).1 (ihs hgap.2 hdot.2).2
    exact ⟨hcell, hcell⟩
  | gap => cases hgap

theorem exact_back_eq_iff {v : Value} :
    v.back.exact = v.exact ↔ ∀ a ∈ v.atoms, a.back.exact = a.exact := by
  induction v with
  | atom value =>
    rw [atoms, List.forall_mem_singleton]
    exact ⟨Value.atom.inj, congrArg Value.atom⟩
  | cell first second ihf ihs =>
    rw [atoms, List.forall_mem_append, ← ihf, ← ihs]
    exact ⟨Value.cell.inj, fun h => congrArg₂ Value.cell h.1 h.2⟩
  | empty | gap => exact iff_of_true rfl (List.forall_mem_nil _)

namespace IsBuilt

variable {v : Value}

theorem hasGap (h : v.IsBuilt) : v.hasGap = false := by
  induction h with
  | atom | empty => rfl
  | cell _ _ ihf ihs => rw [Value.hasGap, ihf, ihs, Bool.or_self]

theorem atoms (h : v.IsBuilt) : ∀ a ∈ v.atoms, a.IsBuilt := by
  induction h with
  | atom h => exact List.forall_mem_singleton.mpr h
  | empty => exact List.forall_mem_nil _
  | cell _ _ ihf ihs => exact List.forall_mem_append.mpr ⟨ihf, ihs⟩

theorem readAs (h : v.IsBuilt) : ∀ a ∈ v.atoms, a.ReadAs a.back := fun a ha =>
  (h.atoms a ha).readAs

theorem spelled (h : v.IsBuilt) : Datum.Spelled v.text v.back.datum := by
  rw [back, ← (datum_mapAtoms_and_tail rfl v).1]
  exact spelled_mapAtoms h.hasGap rfl h.readAs

theorem derives_back (h : v.IsBuilt) : Derives v.back.datum v.back := by
  refine (derives_datum_and_tail ?_ ?_).1
  · rw [back, hasGap_mapAtoms, h.hasGap]
  · rw [back, atoms_mapAtoms]
    exact List.forall_mem_map.mpr fun a ha => (h.readAs a ha).ne_dot

/-- The value that is read is the same, if there is no whole number beyond the range. -/
theorem exact_back_iff :
    v.back.exact = v.exact ↔
      ∀ n : Int, Number.int n ∈ v.numbers → n.natAbs < Double.overflowThreshold := by
  simp only [exact_back_eq_iff, Atom.exact_back_eq_iff, mem_numbers_iff]
  exact ⟨fun h n hn => h _ hn n rfl, fun h a ha n heq => h n (heq ▸ ha)⟩

theorem read_back_iff (h : v.IsBuilt) :
    (∃ d v', Datum.read v.text = .ok d ∧ ofDatum d = .ok v' ∧ v'.exact = v.exact) ↔
      ∀ n : Int, Number.int n ∈ v.numbers → n.natAbs < Double.overflowThreshold := by
  have hread := h.spelled.read
  have hvalue := h.derives_back.ofDatum
  rw [← exact_back_iff]
  constructor
  · rintro ⟨d, v', hd, hv', heq⟩
    obtain rfl := Except.ok.inj (hread.symm.trans hd)
    obtain rfl := Except.ok.inj (hvalue.symm.trans hv')
    exact heq
  · intro heq
    exact ⟨_, _, hread, hvalue, heq⟩

theorem quote_back_iff (h : v.IsBuilt) :
    (∃ v', Exp.ofText .form ("'" ++ v.text) = .ok (.quote v') ∧ v'.exact = v.exact) ↔
      ∀ n : Int, Number.int n ∈ v.numbers → n.natAbs < Double.overflowThreshold := by
  have hread := (h.spelled.quote (head?_text h.hasGap h.readAs)).read
  have hquote : Exp.ofText .form ("'" ++ v.text) = .ok (.quote v.back) :=
    Exp.ofText_eq_ok_iff.mpr ⟨_, hread, .expression (.quote h.derives_back)⟩
  rw [← exact_back_iff]
  constructor
  · rintro ⟨v', hv', heq⟩
    obtain rfl := Exp.quote.inj (Except.ok.inj (hquote.symm.trans hv'))
    exact heq
  · intro heq
    exact ⟨_, hquote, heq⟩

end IsBuilt

/-- A value that is built of finite numbers, booleans, strings and symbols that are read has a text.
From this text the value is read, and behind a quote it is read as the quoted value, with numbers of
the same values, if and only if all whole numbers in it are in the range of doubles. -/
theorem reads_back_iff_of_isBuilt {v : Value} (h : v.IsBuilt) :
    v.written = .ok v.text ∧
      ((∃ d v', Datum.read v.text = .ok d ∧ ofDatum d = .ok v' ∧ v'.exact = v.exact) ↔
        ∀ n : Int, Number.int n ∈ v.numbers → n.natAbs < Double.overflowThreshold) ∧
      ((∃ v', Exp.ofText .form ("'" ++ v.text) = .ok (.quote v') ∧ v'.exact = v.exact) ↔
        ∀ n : Int, Number.int n ∈ v.numbers → n.natAbs < Double.overflowThreshold) := by
  have hgap : v.gap? = none := by rw [gap?, h.hasGap]; rfl
  exact ⟨Gap.orText_of_eq_none hgap v.text, h.read_back_iff, h.quote_back_iff⟩

/-- a list headed by `quote`, and in it a chain that ends in a number -/
def headedByQuote : Value :=
  .cell (.atom (.symbol "quote")) (.cell
    (.cell (.atom (.string "a\"\\")) (.atom (.number (.int (-3))))) .empty)

theorem headedByQuote_reads_back :
    headedByQuote.IsBuilt ∧
      (∃ d v', Datum.read headedByQuote.text = .ok d ∧ ofDatum d = .ok v' ∧
        v'.exact = headedByQuote.exact) ∧
      ∃ v', Exp.ofText .form ("'" ++ headedByQuote.text) = .ok (.quote v') ∧
        v'.exact = headedByQuote.exact := by
  have hsymbol : Datum.read "quote" = .ok (.symbol "quote") :=
    (Datum.readable_symbol (by decide)).spelled.read
  have hbuilt : headedByQuote.IsBuilt :=
    .cell (.atom ⟨by decide, hsymbol⟩) (.cell (.cell (.atom trivial) (.atom rfl)) .empty)
  have hrange : ∀ n : Int, Number.int n ∈ headedByQuote.numbers →
      n.natAbs < Double.overflowThreshold := by
    intro n hn
    obtain rfl := Number.int.inj (List.mem_singleton.mp hn)
    decide +kernel
  obtain ⟨-, hread, hquote⟩ := reads_back_iff_of_isBuilt hbuilt
  exact ⟨hbuilt, hread.mpr hrange, hquote.mpr hrange⟩

/-- the first whole number beyond the range of doubles -/
def tooLarge : Value := .atom (.number (.int Double.overflowThreshold))

theorem tooLarge_not_read_back :
    tooLarge.IsBuilt ∧
      (¬∃ d v', Datum.read tooLarge.text = .ok d ∧ ofDatum d = .ok v' ∧
        v'.exact = tooLarge.exact) ∧
      ¬∃ v', Exp.ofText .form ("'" ++ tooLarge.text) = .ok (.quote v') ∧
        v'.exact = tooLarge.exact := by
  have hbuilt : tooLarge.IsBuilt := .atom rfl
  have hrange : ¬∀ n : Int, Number.int n ∈ tooLarge.numbers →
      n.natAbs < Double.overflowThreshold :=
    fun hall => Nat.lt_irrefl _ (hall Double.overflowThreshold List.mem_cons_self)
  exact ⟨hbuilt, mt hbuilt.read_back_iff.mp hrange, mt hbuilt.quote_back_iff.mp hrange⟩

end Value

end AnnotatedScheme
