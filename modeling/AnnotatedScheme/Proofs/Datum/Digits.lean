import AnnotatedScheme.Datum.Reader
import AnnotatedScheme.Proofs.Lists
import AnnotatedScheme.Proofs.Datum.Symbol
import AnnotatedScheme.Proofs.Number.Range

/-!
# Digits that are no atom

A sign, if any, and decimal digits of any scripts are taken as one lexeme, which is the atom of the
whole number that they denote (`Atom.ofLexeme_whole`). Too many digits of a number in the range of
doubles stop the scanner (`Token.scanFrom_overlong`), as zeros do (`Datum.readAll_zeros`). Nothing
else stops it without an error: then more digits than `digitLimit` are in the text
(`Token.bounds_of_scanFrom`), and the reader has not come to what the tokens make
(`Datum.read_eq_overlong_iff`).
-/

namespace AnnotatedScheme

variable {sign digits : List Char}

theorem Atom.ofLexeme_whole (hsign : sign ∈ [[], ['+'], ['-']]) (hne : digits ≠ [])
    (hdigits : ∀ c ∈ digits, isDecimalDigit c = true) :
    ∃ c cs, sign ++ digits = c :: cs ∧ beginsAtom c = true ∧ c :: cs ≠ ['.'] ∧
      (∀ d ∈ cs, endsAtom d = false ∧ isForbidden d = false) ∧
        ofLexeme (c :: cs) =
          if Number.IsConverted digits then
            .ok (.number (.ofWhole (Number.wholeValue sign digits)))
          else .error (.overlong ⟨digits.length⟩) := by
  have hstays : ∀ d ∈ digits, endsAtom d = false ∧ isForbidden d = false := fun d hd =>
    stays_of_isDecimalDigit (hdigits d hd)
  obtain ⟨c, cs, hchars, hbegins, hsharp, hdot, hbody⟩ : ∃ c cs, sign ++ digits = c :: cs ∧
      beginsAtom c = true ∧ c ≠ '#' ∧ c ≠ '.' ∧
        ∀ d ∈ cs, endsAtom d = false ∧ isForbidden d = false := by
    simp only [List.mem_cons, List.not_mem_nil, or_false] at hsign
    rcases hsign with rfl | rfl | rfl
    · obtain ⟨c, cs, rfl⟩ := List.exists_cons_of_ne_nil hne
      obtain ⟨hbegins, hsharp, hdot⟩ := beginsAtom_of_isDecimalDigit (hdigits c List.mem_cons_self)
      exact ⟨c, cs, rfl, hbegins, hsharp, hdot, fun d hd => hstays d (List.mem_cons_of_mem c hd)⟩
    · exact ⟨'+', digits, rfl, by decide, by decide, by decide, hstays⟩
    · exact ⟨'-', digits, rfl, by decide, by decide, by decide, hstays⟩
  have htext := Number.ofText?_whole hsign hne hdigits
  rw [hchars] at htext
  refine ⟨c, cs, hchars, hbegins, fun heq => hdot (List.cons.inj heq).1, hbody, ?_⟩
  split at htext
  · rename_i h
    rw [if_pos h]
    exact ofLexeme_eq_number_iff.mpr ⟨hsharp, htext⟩
  · rename_i h
    rw [if_neg h]
    exact ofLexeme_overlong hsharp htext

/-- The digits are refused before anything behind them is looked at. -/
theorem Token.scanFrom_overlong (hsign : sign ∈ [[], ['+'], ['-']]) (hne : digits ≠ [])
    (hdigits : ∀ c ∈ digits, isDecimalDigit c = true) (h : ¬Number.IsConverted digits)
    {rest : List Char} (hrest : Stops rest) (line : Nat) :
    scanFrom line (sign ++ digits ++ rest) = .error (.overlong ⟨digits.length⟩) := by
  obtain ⟨c, cs, hchars, hbegins, hdot, hbody, hvalue⟩ := Atom.ofLexeme_whole hsign hne hdigits
  obtain ⟨hblank, -, -, -, -, hsemi⟩ := endsAtom_eq_false_iff.mp (beginsAtom_iff.mp hbegins).1
  have hnewline : c ≠ '\n' := by
    rintro rfl
    exact absurd hblank (by decide)
  have hshape : shapeOf line c (cs ++ rest) = .error (.overlong ⟨digits.length⟩) := by
    rw [shapeOf_append hbegins hdot hbody hrest, hvalue, if_neg h]
    rfl
  rw [hchars, List.cons_append, scanFrom, if_neg hnewline, hblank, if_neg Bool.false_ne_true,
    if_neg hsemi, hshape]
  rfl

/-! ## what is not converted -/

/-- more digits than are converted, all of them from the text -/
def Overlong.Bounds (numeral : Overlong) (text : List Char) : Prop :=
  digitLimit < numeral.digits ∧ numeral.digits ≤ text.length

variable {numeral : Overlong}

theorem Overlong.Bounds.mono {part text : List Char} (h : numeral.Bounds part)
    (hlength : part.length ≤ text.length) : numeral.Bounds text :=
  ⟨h.1, Nat.le_trans h.2 hlength⟩

theorem Number.bounds_of_ofText? {text : List Char} (h : ofText? text = some (.error numeral)) :
    numeral.Bounds text := by
  obtain ⟨n, hn, hconverted⟩ := Option.map_eq_some_iff.mp h
  unfold ofNumeral at hconverted
  split at hconverted
  · split at hconverted
    · cases hconverted
    · rename_i hlong
      obtain rfl := Except.error.inj hconverted
      exact ⟨Nat.not_le.mp hlong, Numeral.length_whole_le hn⟩
  · cases hconverted

namespace Token

variable {line : Nat} {c : Char} {rest : List Char}

theorem bounds_of_ofLexeme {lexeme : List Char}
    (h : Atom.ofLexeme lexeme = .error (.overlong numeral)) : numeral.Bounds lexeme := by
  unfold Atom.ofLexeme at h
  split at h
  · split at h
    · cases h
    split at h <;> cases h
  · split at h
    · cases h
    · rename_i hnumber
      obtain rfl := Unread.overlong.inj (Except.error.inj h)
      exact Number.bounds_of_ofText? hnumber
    · cases h

theorem bounds_of_shapeOf (h : shapeOf line c rest = .error (.overlong numeral)) :
    numeral.Bounds (c :: rest) := by
  unfold shapeOf at h
  split at h
  · cases h
  split at h
  · cases h
  split at h
  · split at h <;> cases h
  split at h
  · cases hstring : scanString line rest <;> (rw [hstring] at h; cases h)
  split at h
  · cases h
  unfold Atom.scan at h
  dsimp only at h
  cases hforbidden : (rest.takeWhile fun d => !endsAtom d).findIdx? isForbidden with
  | some i =>
    rw [hforbidden] at h
    cases h
  | none =>
    rw [hforbidden] at h
    cases hatom : Atom.ofLexeme (c :: rest.takeWhile fun d => !endsAtom d) with
    | ok value =>
      rw [hatom] at h
      cases h
    | error reason =>
      rw [hatom] at h
      cases reason with
      | reader => cases h
      | overlong =>
        obtain rfl := Unread.overlong.inj (Except.error.inj h)
        exact (bounds_of_ofLexeme hatom).mono
          (Nat.succ_le_succ (List.takeWhile_sublist _).length_le)

theorem bounds_of_scanFrom {text : List Char}
    (h : scanFrom line text = .error (.overlong numeral)) : numeral.Bounds text := by
  fun_induction scanFrom line text with
  | case1 => cases h
  | case2 line rest ih | case3 line c rest _ _ ih => exact (ih h).mono (Nat.le_succ _)
  | case4 line rest _ _ ih =>
    exact (ih h).mono (Nat.le_succ_of_le (List.dropWhile_sublist _).length_le)
  | case5 line c rest _ _ _ ih =>
    rcases Except.bind_eq_error_iff.mp h with hshape | ⟨⟨shape, n⟩, -, hbehind⟩
    · exact bounds_of_shapeOf hshape
    · rcases Except.bind_eq_error_iff.mp hbehind with hmore | ⟨tokens, -, hdone⟩
      · apply (ih n hmore).mono
        rw [List.length_drop, List.length_cons]
        omega
      · cases hdone

end Token

namespace Datum

variable {text : String}

/-- what the tokens make is no matter if there are none -/
theorem readAll_eq_overlong_iff :
    readAll text = .error (.overlong numeral) ↔ Token.scan text = .error (.overlong numeral) := by
  rw [readAll, Except.bind_eq_error_iff]
  apply or_iff_left
  rintro ⟨tokens, -, h⟩
  obtain ⟨e, -, he⟩ := Except.mapError_eq_error_iff.mp h
  cases he

theorem read_eq_overlong_iff :
    read text = .error (.overlong numeral) ↔ Token.scan text = .error (.overlong numeral) := by
  rw [read, Except.bind_eq_error_iff, readAll_eq_overlong_iff]
  apply or_iff_left
  -- anything but one datum is an error of the reader
  rintro ⟨data, -, h⟩
  rcases data with _ | ⟨d, _ | _⟩
  all_goals cases h

/-- a text of zeros -/
def zeros (n : Nat) : String := String.ofList (List.replicate n '0')

theorem scanFrom_zeros {n : Nat} (h : digitLimit < n) (line : Nat) :
    Token.scanFrom line (zeros n).toList = .error (.overlong ⟨n⟩) := by
  have hne : List.replicate n '0' ≠ [] := by
    rw [Ne, List.replicate_eq_nil_iff]
    omega
  have hdigits : ∀ c ∈ List.replicate n '0', isDecimalDigit c = true := by
    intro c hc
    rw [List.eq_of_mem_replicate hc]
    decide
  have hoverlong : ¬Number.IsConverted (List.replicate n '0') := by
    rw [Number.IsConverted, List.length_replicate, digitsValue_replicate_zero, not_or]
    exact ⟨Nat.not_le.mpr h, by decide +kernel⟩
  have hsign : [] ∈ [[], ['+'], ['-']] := by decide
  have hstops : Stops [] := rfl
  have hscan := Token.scanFrom_overlong hsign hne hdigits hoverlong hstops line
  rw [List.nil_append, List.append_nil, List.length_replicate] at hscan
  rw [zeros, String.toList_ofList, hscan]

theorem readAll_zeros {n : Nat} (h : digitLimit < n) :
    readAll (zeros n) = .error (.overlong ⟨n⟩) := by
  rw [readAll, Token.scan, scanFrom_zeros h]
  rfl

end Datum

end AnnotatedScheme
