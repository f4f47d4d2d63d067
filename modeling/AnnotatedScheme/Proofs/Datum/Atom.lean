import AnnotatedScheme.Proofs.Datum.Reader
import AnnotatedScheme.Proofs.Number.Exact

/-!
# Written atoms are read back

`Atom.IsRead` is the condition on an atom that the reader keeps. The text of such an atom is one
token wherever an atom can end behind it (`Atom.IsRead.scans`), and the atom of this token is
`Atom.reread`: numbers become exact, and an infinite number the symbol that is written for it.
-/

namespace AnnotatedScheme

namespace Atom

def isInfinite : Atom → Bool
  | .number value => value.isInfinite
  | _ => false

/-- the atom with its number exact -/
def exact : Atom → Atom
  | .number value => .number value.exact
  | value => value

/-- what is read from the text of an atom -/
def reread (value : Atom) : Atom := if value.isInfinite then .symbol value.text else value.exact

/-- the atoms that are read from tokens other than dots -/
def IsRead : Atom → Prop
  | .number value => value.InRange
  | .symbol name => isSymbolName name = true
  | .boolean _ => True
  | .string _ => True

theorem reread_of_isInfinite {value : Atom} (h : value.isInfinite = true) :
    value.reread = .symbol value.text := if_pos h

theorem reread_of_not_isInfinite {value : Atom} (h : value.isInfinite = false) :
    value.reread = value.exact := if_neg (by simp [h])

theorem isInfinite_exact (value : Atom) : value.exact.isInfinite = value.isInfinite := by
  cases value with
  | number x => exact x.isInfinite_exact
  | _ => rfl

theorem exact_exact (value : Atom) : value.exact.exact = value.exact := by
  cases value with
  | number x => exact congrArg number x.exact_exact
  | _ => rfl

theorem text_exact (value : Atom) : value.exact.text = value.text := by
  cases value with
  | number x => exact congrArg String.ofList x.ofNumber_exact
  | _ => rfl

theorem isInfinite_reread (value : Atom) : value.reread.isInfinite = false := by
  cases h : value.isInfinite with
  | true =>
    rw [reread_of_isInfinite h]
    rfl
  | false => rw [reread_of_not_isInfinite h, isInfinite_exact, h]

theorem text_reread (value : Atom) : value.reread.text = value.text := by
  cases h : value.isInfinite with
  | true => rw [reread_of_isInfinite h, text]
  | false => rw [reread_of_not_isInfinite h, text_exact]

/-- the text of an infinite number is that of a symbol -/
theorem isSymbolName_of_isInfinite {value : Atom} (h : value.isInfinite = true) :
    isSymbolName value.text = true := by
  match value, h with
  | .number (.double (.infinite true)), _ => decide
  | .number (.double (.infinite false)), _ => decide

theorem exact_eq_dot_iff {value : Atom} : value.exact = .symbol "." ↔ value = .symbol "." := by
  cases value <;> simp [exact]

theorem reread_eq_dot_iff {value : Atom} : value.reread = .symbol "." ↔ value = .symbol "." := by
  cases h : value.isInfinite with
  | true =>
    rw [reread_of_isInfinite h]
    refine iff_of_false (fun heq => ?_) (fun heq => ?_)
    · have hname := isSymbolName_of_isInfinite h
      rw [Atom.symbol.inj heq] at hname
      exact absurd hname (by decide)
    · rw [heq] at h
      cases h
  | false => rw [reread_of_not_isInfinite h, exact_eq_dot_iff]

end Atom

/-! ## the texts of atoms -/

/-- the characters of written numerals stay in an atom -/
theorem Numeral.IsWritten.stays {x : Numeral} (h : x.IsWritten) :
    ∃ c cs, x.text = c :: cs ∧ (c = '-' ∨ isDecimalDigit c = true) ∧
      ∀ d ∈ cs, endsAtom d = false ∧ isForbidden d = false := by
  have hdigits : ∀ {digits : List Char}, IsDigits digits →
      ∀ d ∈ digits, endsAtom d = false ∧ isForbidden d = false :=
    fun hdigits d hd => stays_of_isDecimalDigit (hdigits.isDecimalDigit d hd)
  have hfraction : ∀ d ∈ fractionText x.fraction, endsAtom d = false ∧ isForbidden d = false := by
    cases hx : x.fraction with
    | none => exact List.forall_mem_nil _
    | some digits => exact List.forall_mem_cons.mpr ⟨by decide, hdigits (h.fraction digits hx)⟩
  have hexponent : ∀ d ∈ exponentText x.exponent, endsAtom d = false ∧ isForbidden d = false := by
    cases hx : x.exponent with
    | none => exact List.forall_mem_nil _
    | some p =>
      obtain ⟨negative, digits⟩ := p
      have hsign : endsAtom (if negative then '-' else '+') = false ∧
          isForbidden (if negative then '-' else '+') = false := by
        cases negative <;> decide
      exact List.forall_mem_cons.mpr ⟨by decide, List.forall_mem_cons.mpr
        ⟨hsign, hdigits (h.exponent negative digits hx).1⟩⟩
  have hbehind := List.forall_mem_append.mpr ⟨hfraction, hexponent⟩
  obtain ⟨c, cs, hwhole⟩ := List.exists_cons_of_ne_nil h.nonempty
  have hc := h.whole
  rw [hwhole, IsDigits, List.forall_mem_cons] at hc
  have hdigit := isDecimalDigit_of_isDigit hc.1
  have hcs := List.forall_mem_append.mpr ⟨hdigits hc.2, hbehind⟩
  unfold text
  rw [hwhole]
  cases x.negative with
  | true =>
    have hstays := stays_of_isDecimalDigit hdigit
    exact ⟨'-', _, rfl, .inl rfl, List.forall_mem_cons.mpr ⟨hstays, hcs⟩⟩
  | false => exact ⟨c, _, rfl, .inr hdigit, hcs⟩

theorem beginsAtom_of_numeral {c : Char} (h : c = '-' ∨ isDecimalDigit c = true) :
    beginsAtom c = true ∧ c ≠ '#' ∧ c ≠ '.' := by
  rcases h with rfl | h
  · decide
  · exact beginsAtom_of_isDecimalDigit h

namespace Token

theorem Scans.number {x : Number} (h : x.InRange) (hfinite : x.isInfinite = false) :
    Scans x.text.toList [.atom (.number x.exact)] := by
  have hread := Number.ofText?_ofNumber h hfinite
  obtain ⟨n, htext, hwritten, -⟩ := Number.exists_numeral h hfinite
  obtain ⟨c, cs, hchars, hfirst, hbody⟩ := hwritten.stays
  obtain ⟨hbegins, hsharp, hdot⟩ := beginsAtom_of_numeral hfirst
  rw [htext, hchars] at hread
  rw [Number.text, String.toList_ofList, htext, hchars]
  exact lexeme hbegins (fun heq => hdot (List.cons.inj heq).1) hbody
    (Atom.ofLexeme_eq_number_iff.mpr ⟨hsharp, hread⟩)

theorem Scans.boolean (value : Bool) :
    Scans (Atom.boolean value).text.toList [.atom (.boolean value)] := by
  cases value with
  | true => exact lexeme (by decide) (by decide) (List.forall_mem_singleton.mpr (by decide)) rfl
  | false => exact lexeme (by decide) (by decide) (List.forall_mem_singleton.mpr (by decide)) rfl

theorem Scans.string (content : String) :
    Scans (Quoted.text content).toList [.atom (.string content)] := by
  have htext : (Quoted.text content).toList =
      '"' :: (Quoted.encode content.toList ++ ['"']) := by
    rw [Quoted.text, String.toList_ofList]
    rfl
  rw [htext, ← List.append_nil ('"' :: _)]
  refine token nil (by decide) (by decide) fun rest _ line => ?_
  have hdecode := Quoted.decode_encode content.toList rest
  have hquoted : Quoted.encode content.toList ++ ['"'] ++ ([] ++ rest) =
      Quoted.encode content.toList ++ '"' :: rest := by simp
  have hscan : scanString line (Quoted.encode content.toList ++ '"' :: rest) =
      .ok (.string content, (Quoted.encode content.toList ++ ['"']).length) := by
    rw [scanString, hdecode]
    simp
  rw [hquoted, shapeOf, if_neg (by decide), if_neg (by decide), if_neg (by decide), if_pos rfl,
    hscan]
  rfl

theorem Scans.dot : Scans ['.'] [.dot] := by
  show Scans (['.'] ++ []) _
  refine token nil (by decide) (by decide) fun rest hrest line => ?_
  rw [shapeOf, if_neg (by decide), if_neg (by decide), if_neg (by decide), if_neg (by decide)]
  exact if_pos ⟨rfl, hrest⟩

end Token

theorem Atom.IsRead.scans {value : Atom} (h : value.IsRead) :
    Token.Scans value.text.toList [.atom value.reread] := by
  cases hinfinite : value.isInfinite with
  | true =>
    rw [reread_of_isInfinite hinfinite]
    exact .symbol (isSymbolName_of_isInfinite hinfinite)
  | false =>
    rw [reread_of_not_isInfinite hinfinite]
    cases value with
    | number x => exact .number h hinfinite
    | boolean x => exact .boolean x
    | string content => exact .string content
    | symbol name => exact .symbol h

theorem Atom.IsRead.ne_dot {value : Atom} (h : value.IsRead) : value ≠ .symbol "." := by
  rintro rfl
  exact absurd (show isSymbolName "." = true from h) (by decide)

/-- a written atom does not begin with a blank -/
theorem Atom.IsRead.head? {value : Atom} (h : value.IsRead) :
    value.text.toList.head?.any fun c => !isBlank c := by
  have hsymbol : ∀ {name : String}, isSymbolName name = true →
      name.toList.head?.any fun c => !isBlank c := by
    intro name hname
    obtain ⟨c, cs, hchars, hbegins, -⟩ := isSymbolName_iff.mp hname
    simp [hchars, (endsAtom_eq_false_iff.mp (beginsAtom_iff.mp hbegins).1).1]
  cases hinfinite : value.isInfinite with
  | true => exact hsymbol (isSymbolName_of_isInfinite hinfinite)
  | false =>
    cases value with
    | number x =>
      obtain ⟨n, htext, hwritten, -⟩ := Number.exists_numeral h hinfinite
      obtain ⟨c, cs, hchars, hfirst, -⟩ := hwritten.stays
      have hbegins := (beginsAtom_of_numeral hfirst).1
      rw [text, Number.text, String.toList_ofList, htext, hchars]
      simp [(endsAtom_eq_false_iff.mp (beginsAtom_iff.mp hbegins).1).1]
    | boolean x => cases x <;> decide
    | string content =>
      rw [text, Quoted.text, String.toList_ofList]
      rfl
    | symbol name => exact hsymbol h

/-- The text of the atom `a` is one token, wherever it stands, and the atom of this token is `b`,
not a dot. -/
structure Atom.ReadAs (a b : Atom) : Prop where
  scans : Token.Scans a.text.toList [.atom b]
  ne_dot : b ≠ .symbol "."
  head : a.text.toList.head?.any fun c => !isBlank c

theorem Atom.IsRead.readAs {value : Atom} (h : value.IsRead) : value.ReadAs value.reread :=
  ⟨h.scans, mt Atom.reread_eq_dot_iff.mp h.ne_dot, h.head?⟩

/-! ## atoms of tokens -/

namespace Token

/-- The atoms of tokens are read. -/
theorem isRead_of_scanFrom {line : Nat} {text : List Char} {tokens : List Token}
    (h : scanFrom line text = .ok tokens) {token : Token} (htoken : token ∈ tokens) {value : Atom}
    (hshape : token.shape = .atom value) : value.IsRead := by
  cases value with
  | symbol name => exact isSymbolName_of_scanFrom h htoken hshape
  | number x =>
    obtain ⟨next, hspells⟩ := exists_spells_of_mem h htoken
    exact Number.inRange_of_ofText? (hshape ▸ hspells).ofText?
  | boolean => trivial
  | string => trivial

end Token

end AnnotatedScheme
