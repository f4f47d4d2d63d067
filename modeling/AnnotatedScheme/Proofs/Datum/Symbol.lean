import AnnotatedScheme.Datum.Token

/-!
# Names of symbols

`isSymbolName` is the condition on a name to be read as one symbol, other than the dot. The text of
an atom is a number if it is a numeral, and a symbol otherwise (`Atom.ofLexeme_eq_ok_iff`), and it
is one token wherever the atom ends (`Token.shapeOf_lexeme`). A numeral that is too long is no atom
(`Atom.ofLexeme_overlong`).
-/

namespace AnnotatedScheme

/-- what can follow an atom -/
def Stops (rest : List Char) : Prop := rest.head?.all endsAtom = true

/-- the characters that begin an atom, unless it is a string -/
def beginsAtom (c : Char) : Bool := !endsAtom c && c ≠ '\x27' && c ≠ '"'

def isSymbolName (name : String) : Bool :=
  match name.toList with
  | [] => false
  | c :: cs =>
    beginsAtom c && c ≠ '#' && name ≠ "." && cs.all (fun d => !endsAtom d && !isForbidden d) &&
      (Number.ofText? (c :: cs)).isNone

theorem isSymbolName_iff {name : String} :
    isSymbolName name = true ↔ ∃ c cs, name.toList = c :: cs ∧ beginsAtom c = true ∧ c ≠ '#' ∧
      name ≠ "." ∧ (∀ d ∈ cs, endsAtom d = false ∧ isForbidden d = false) ∧
        Number.ofText? (c :: cs) = none := by
  unfold isSymbolName
  cases h : name.toList with
  | nil => simp
  | cons c cs => simp [and_assoc]

theorem endsAtom_eq_false_iff {c : Char} :
    endsAtom c = false ↔ isBlank c = false ∧ c ≠ '(' ∧ c ≠ ')' ∧ c ≠ '[' ∧ c ≠ ']' ∧ c ≠ ';' := by
  simp [endsAtom]

theorem beginsAtom_iff {c : Char} :
    beginsAtom c = true ↔ endsAtom c = false ∧ c ≠ '\x27' ∧ c ≠ '"' := by
  simp [beginsAtom, and_assoc]

/-- an atom goes up to what ends it -/
theorem takeWhile_endsAtom {cs rest : List Char} (h : ∀ d ∈ cs, endsAtom d = false)
    (hrest : Stops rest) : (cs ++ rest).takeWhile (fun d => !endsAtom d) = cs := by
  rw [List.takeWhile_append_of_pos (by simpa using h)]
  cases rest with
  | nil => simp
  | cons d rest =>
    have hd : endsAtom d = true := by simpa [Stops] using hrest
    simp [hd]

theorem isBlank_of_isDecimalDigit {d : Char} (h : isDecimalDigit d = true) : isBlank d = false := by
  have happart : ∀ start ∈ digitZeros, ∀ range ∈ blankRanges,
      range.2 < start ∨ start + 10 ≤ range.1 := by decide
  obtain ⟨start, hstart, hlow, hhigh⟩ := exists_zero_of_isDecimalDigit h
  refine Bool.eq_false_iff.mpr fun hblank => ?_
  obtain ⟨range, hrange, hinside⟩ := List.any_eq_true.mp hblank
  rw [Bool.and_eq_true, Nat.ble_eq, Nat.ble_eq] at hinside
  have := happart start hstart range hrange
  omega

theorem stays_of_isDecimalDigit {d : Char} (h : isDecimalDigit d = true) :
    endsAtom d = false ∧ isForbidden d = false := by
  have hne : ∀ cs : List Char, cs.any isDecimalDigit = false → cs.contains d = false := by
    intro cs hcs
    refine Bool.eq_false_iff.mpr fun hmem => ?_
    exact List.any_eq_false.mp hcs d (List.contains_iff_mem.mp hmem) h
  rw [endsAtom, isBlank_of_isDecimalDigit h, Bool.false_or]
  exact ⟨hne _ (by decide), hne _ (by decide)⟩

theorem beginsAtom_of_isDecimalDigit {c : Char} (h : isDecimalDigit c = true) :
    beginsAtom c = true ∧ c ≠ '#' ∧ c ≠ '.' := by
  have hne : ∀ d : Char, isDecimalDigit d = false → c ≠ d := by
    rintro d hd rfl
    exact absurd (h.symm.trans hd) (by decide)
  refine ⟨beginsAtom_iff.mpr ⟨(stays_of_isDecimalDigit h).1, ?_, ?_⟩, ?_, ?_⟩
  all_goals exact hne _ (by decide)

/-! ## atoms -/

namespace Atom

variable {c : Char} {cs : List Char}

/-- booleans apart, what begins with a sharp is no atom -/
theorem ofLexeme_eq_ok_iff {value : Atom} (hboolean : ∀ x, value ≠ .boolean x) :
    ofLexeme (c :: cs) = .ok value ↔ c ≠ '#' ∧
      (match Number.ofText? (c :: cs) with
      | some converted => converted.toOption.map number
      | none => some (symbol (String.ofList (c :: cs)))) = some value := by
  rw [ofLexeme, List.head?_cons]
  by_cases hsharp : c = '#'
  · rw [if_pos (congrArg some hsharp)]
    refine iff_of_false (fun h => ?_) fun h => h.1 hsharp
    split at h
    · exact hboolean true (Except.ok.inj h).symm
    split at h
    · exact hboolean false (Except.ok.inj h).symm
    · cases h
  · rw [if_neg (by simpa using hsharp), and_iff_right hsharp]
    cases Number.ofText? (c :: cs) with
    | none => simp
    | some converted => cases converted <;> simp [Except.toOption]

theorem ofLexeme_eq_number_iff {x : Number} :
    ofLexeme (c :: cs) = .ok (.number x) ↔ c ≠ '#' ∧ Number.ofText? (c :: cs) = some (.ok x) := by
  rw [ofLexeme_eq_ok_iff fun _ => Atom.noConfusion]
  cases Number.ofText? (c :: cs) with
  | none => simp
  | some converted => cases converted <;> simp [Except.toOption]

theorem ofLexeme_eq_symbol_iff {name : String} :
    ofLexeme (c :: cs) = .ok (.symbol name) ↔
      c ≠ '#' ∧ Number.ofText? (c :: cs) = none ∧ String.ofList (c :: cs) = name := by
  rw [ofLexeme_eq_ok_iff fun _ => Atom.noConfusion]
  cases Number.ofText? (c :: cs) with
  | none => simp
  | some converted => cases converted <;> simp [Except.toOption]

theorem ofLexeme_overlong {numeral : Overlong} (hsharp : c ≠ '#')
    (h : Number.ofText? (c :: cs) = some (.error numeral)) :
    ofLexeme (c :: cs) = .error (.overlong numeral) := by
  rw [ofLexeme, List.head?_cons, if_neg (by simpa using hsharp), h]

end Atom

namespace Token

theorem shapeOf_of_beginsAtom {line : Nat} {c : Char} {rest : List Char} (hc : beginsAtom c = true)
    (hdot : ¬(c = '.' ∧ rest.head?.all endsAtom = true)) :
    shapeOf line c rest =
      match Atom.scan c rest with
      | .ok (value, n) => .ok (.atom value, n)
      | .error reason => .error (reason.map (⟨·, line⟩)) := by
  obtain ⟨hends, hquote, hstring⟩ := beginsAtom_iff.mp hc
  obtain ⟨-, h₁, h₂, h₃, h₄, -⟩ := endsAtom_eq_false_iff.mp hends
  rw [shapeOf, if_neg (not_or.mpr ⟨h₁, h₃⟩), if_neg (not_or.mpr ⟨h₂, h₄⟩), if_neg hquote,
    if_neg hstring]
  exact (if_neg hdot).trans (by cases Atom.scan c rest <;> rfl)

/-- Where an atom that is no string ends, it is converted as a whole. -/
theorem shapeOf_append {c : Char} {cs rest : List Char} (hbegins : beginsAtom c = true)
    (hdot : c :: cs ≠ ['.']) (hbody : ∀ d ∈ cs, endsAtom d = false ∧ isForbidden d = false)
    (hrest : Stops rest) (line : Nat) :
    shapeOf line c (cs ++ rest) =
      match Atom.ofLexeme (c :: cs) with
      | .ok value => .ok (.atom value, cs.length)
      | .error reason => .error (reason.map (⟨·, line⟩)) := by
  have hlone : ¬(c = '.' ∧ (cs ++ rest).head?.all endsAtom = true) := by
    intro h
    obtain ⟨rfl, hhead⟩ := h
    cases cs with
    | nil => exact hdot rfl
    | cons d cs => simp [(hbody d List.mem_cons_self).1] at hhead
  have hforbidden : cs.findIdx? isForbidden = none :=
    List.findIdx?_eq_none_iff.mpr fun d hd => (hbody d hd).2
  rw [shapeOf_of_beginsAtom hbegins hlone, Atom.scan,
    takeWhile_endsAtom (fun d hd => (hbody d hd).1) hrest, hforbidden]
  cases Atom.ofLexeme (c :: cs) <;> rfl

/-- An atom that is no string is one token, if it ends behind it. -/
theorem shapeOf_lexeme {c : Char} {cs rest : List Char} {value : Atom}
    (hbegins : beginsAtom c = true) (hdot : c :: cs ≠ ['.'])
    (hbody : ∀ d ∈ cs, endsAtom d = false ∧ isForbidden d = false)
    (hvalue : Atom.ofLexeme (c :: cs) = .ok value) (hrest : Stops rest) (line : Nat) :
    shapeOf line c (cs ++ rest) = .ok (.atom value, cs.length) := by
  rw [shapeOf_append hbegins hdot hbody hrest, hvalue]

end Token

end AnnotatedScheme
