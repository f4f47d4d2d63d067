import AnnotatedScheme.Proofs.Datum.Piece
import AnnotatedScheme.Proofs.Datum.Read
import AnnotatedScheme.Proofs.Number.Range

/-!
# Whole numbers in texts

A sign, if any, and decimal digits of any scripts are read as the whole number that they denote, or
as an infinite number if no double is as large, or are refused because they are too many
(`Datum.read_whole_number`). The digits that are written are never too many to be read
(`Number.isConverted_digitText`), so the whole numbers in the range of doubles, and the doubles that
are whole, are read back from their texts exactly.
-/

namespace AnnotatedScheme

variable {sign digits : List Char}

theorem Token.Scans.whole (hsign : sign ∈ [[], ['+'], ['-']]) (hne : digits ≠ [])
    (hdigits : ∀ c ∈ digits, isDecimalDigit c = true) (h : Number.IsConverted digits) :
    Token.Scans (sign ++ digits) [.atom (.number (.ofWhole (Number.wholeValue sign digits)))] := by
  obtain ⟨c, cs, hchars, hbegins, hlone, hbody, hreads⟩ := Atom.ofLexeme_whole hsign hne hdigits
  rw [if_pos h] at hreads
  rw [hchars]
  exact .lexeme hbegins hlone hbody hreads

/-- a whole number in the range of doubles is short when it is written -/
theorem Number.isConverted_digitText (n : Nat) : IsConverted (Notation.digitText n) := by
  by_cases hlt : n < Double.overflowThreshold
  · have hrange : (Number.int n).InRange := inRange_int_iff.mpr hlt
    exact .inl hrange.length_le
  · rw [IsConverted, digitsValue_digitText]
    exact .inr (Nat.not_lt.mp hlt)

/-- the text of a whole number, as a sign and digits -/
theorem Number.exists_text_int (value : Int) :
    ∃ sign ∈ [[], ['+'], ['-']], (Number.int value).text =
        String.ofList (sign ++ Notation.digitText value.natAbs) ∧
      wholeValue sign (Notation.digitText value.natAbs) = value := by
  rw [text, Notation.ofNumber, Notation.ofInt]
  by_cases hnegative : value < 0
  · refine ⟨['-'], by decide, by rw [decide_eq_true hnegative]; rfl, ?_⟩
    rw [wholeValue, if_pos rfl, digitsValue_digitText]
    omega
  · refine ⟨[], by decide, by rw [decide_eq_false hnegative]; rfl, ?_⟩
    rw [wholeValue, if_neg (by decide), digitsValue_digitText]
    omega

theorem Atom.readAs_int (value : Int) :
    Atom.ReadAs (.number (.int value)) (.number (.ofWhole value)) := by
  obtain ⟨sign, hsign, htext, hvalue⟩ := Number.exists_text_int value
  have hne : Notation.digitText value.natAbs ≠ [] := Nat.toDigits_ne_nil
  have hdigits := (isDigits_digitText value.natAbs).isDecimalDigit
  obtain ⟨c, cs, hchars, hbegins, -⟩ := Atom.ofLexeme_whole hsign hne hdigits
  have hscans := Token.Scans.whole hsign hne hdigits (Number.isConverted_digitText value.natAbs)
  rw [hvalue] at hscans
  refine ⟨?_, Atom.noConfusion, ?_⟩
  · rw [Atom.text, htext, String.toList_ofList]
    exact hscans
  · rw [Atom.text, htext, String.toList_ofList, hchars]
    simp [(endsAtom_eq_false_iff.mp (beginsAtom_iff.mp hbegins).1).1]

namespace Datum

/-- the atom alone, and among others -/
theorem read_whole (hsign : sign ∈ [[], ['+'], ['-']]) (hne : digits ≠ [])
    (hdigits : ∀ c ∈ digits, isDecimalDigit c = true) :
    read (String.ofList (sign ++ digits)) =
        (if Number.IsConverted digits then
          .ok (.atom (.number (.ofWhole (Number.wholeValue sign digits))))
        else .error (.overlong ⟨digits.length⟩)) ∧
      ∀ text tokens, Token.scan text = .ok tokens → ∀ token ∈ tokens,
        token.lexeme = String.ofList (sign ++ digits) →
          token.shape = .atom (.number (.ofWhole (Number.wholeValue sign digits))) := by
  refine ⟨?_, ?_⟩
  · by_cases h : Number.IsConverted digits
    · rw [if_pos h]
      refine Spelled.read ⟨[.atom _], ?_, places_atom (.number _)⟩
      rw [String.toList_ofList]
      exact .whole hsign hne hdigits h
    · have hstops : Stops [] := rfl
      have hscan := Token.scanFrom_overlong hsign hne hdigits h hstops 0
      rw [List.append_nil] at hscan
      rw [if_neg h, read, readAll, Token.scan, String.toList_ofList, hscan]
      rfl
  · intro text tokens hscan token htoken hlexeme
    obtain ⟨c, cs, hchars, hbegins, hlone, -, hreads⟩ := Atom.ofLexeme_whole hsign hne hdigits
    obtain ⟨next, hspells⟩ := Token.exists_spells_of_mem hscan htoken
    rw [hlexeme, String.toList_ofList, hchars] at hspells
    obtain ⟨-, atom, hshape, hatom⟩ := hspells.of_beginsAtom hbegins hlone
    -- what is scanned has not been refused
    split at hreads
    · rw [hshape, Except.ok.inj (hatom.symm.trans hreads)]
    · cases hatom.symm.trans hreads

theorem read_text_int (value : Int) :
    read (Number.text (.int value)) = .ok (.atom (.number (.ofWhole value))) :=
  Spelled.read ⟨[.atom _], (Atom.readAs_int value).scans, places_atom (.number _)⟩

theorem read_text_int_iff {value : Int} :
    read (Number.text (.int value)) = .ok (.atom (.number (.int value))) ↔
      value.natAbs < Double.overflowThreshold := by
  rw [read_text_int, ← Number.ofWhole_eq_int_iff]
  simp only [Except.ok.injEq, Datum.atom.injEq, Atom.number.injEq]

/-- The text of a double that is whole is that of the whole number, which is not too large. -/
theorem read_text_double {x : Double} {value : Int}
    (h : (Number.double x).units? = (Number.int value).units?) :
    read (Number.text (.double x)) = .ok (.atom (.number (.int value))) := by
  have hexact : (Number.double x).exact = .int value :=
    (Number.exact_eq_exact_iff (by rw [h]; rfl)).mpr h
  have hwhole : x.toInt? = some value := by
    cases hx : x.toInt? with
    | none =>
      rw [Number.exact_of_not_whole hx] at hexact
      cases hexact
    | some whole => rw [Number.int.inj ((Number.exact_of_whole hx).symm.trans hexact)]
  have htext : Number.text (.double x) = Number.text (.int value) := by
    rw [Number.text, ← Number.ofNumber_exact, hexact, Number.text]
  rw [htext]
  exact read_text_int_iff.mpr (Number.inRange_int_iff.mp (Number.inRange_of_toInt? hwhole))

/-- Whole numbers are read exactly up to the range of doubles. A sign, if any, and digits are read
as the whole number that they denote, or as an infinite number of its sign from
`Double.overflowThreshold` on; below that, more digits than `digitLimit` are refused. So a whole
number is read back from its text just if it is in this range, and a double that is whole is read
back as the whole number with its value. -/
theorem read_whole_number :
    (∀ sign ∈ [[], ['+'], ['-']], ∀ digits : List Char, digits ≠ [] →
      (∀ c ∈ digits, isDecimalDigit c = true) →
        read (String.ofList (sign ++ digits)) =
            (if Number.IsConverted digits then
              .ok (.atom (.number (.ofWhole (Number.wholeValue sign digits))))
            else .error (.overlong ⟨digits.length⟩)) ∧
          ∀ text tokens, Token.scan text = .ok tokens → ∀ token ∈ tokens,
            token.lexeme = String.ofList (sign ++ digits) →
              token.shape = .atom (.number (.ofWhole (Number.wholeValue sign digits)))) ∧
    (∀ value : Int, read (Number.text (.int value)) = .ok (.atom (.number (.int value))) ↔
      value.natAbs < Double.overflowThreshold) ∧
    ∀ (x : Double) (value : Int), (Number.double x).units? = (Number.int value).units? →
      read (Number.text (.double x)) = .ok (.atom (.number (.int value))) :=
  ⟨fun _ hsign _ hne hdigits => read_whole hsign hne hdigits, fun _ => read_text_int_iff,
    fun _ _ => read_text_double⟩

/-- digits of two scripts, and the whole numbers on both sides of the threshold -/
theorem read_whole_number_mixed :
    read "-\u06634" = .ok (.atom (.number (.int (-34)))) ∧
      read (Number.text (.int (Double.overflowThreshold - 1))) =
        .ok (.atom (.number (.int (Double.overflowThreshold - 1)))) ∧
      read (Number.text (.int Double.overflowThreshold)) ≠
        .ok (.atom (.number (.int Double.overflowThreshold))) := by
  have hdigits : ∀ c ∈ ['\u0663', '4'], isDecimalDigit c = true :=
    List.all_eq_true.mp (by decide +kernel)
  have hmixed := (read_whole_number.1 ['-'] (by decide) ['\u0663', '4'] (by decide) hdigits).1
  have hvalue : Number.ofWhole (Number.wholeValue ['-'] ['\u0663', '4']) = .int (-34) := by
    decide +kernel
  rw [if_pos (by decide), hvalue] at hmixed
  have hbelow := read_whole_number.2.1 (Double.overflowThreshold - 1)
  have habove := read_whole_number.2.1 Double.overflowThreshold
  refine ⟨hmixed, hbelow.mpr (by decide +kernel), fun heq => ?_⟩
  exact absurd (habove.mp heq) (by decide +kernel)

end Datum

end AnnotatedScheme
