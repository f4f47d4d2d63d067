import AnnotatedScheme.Proofs.Datum.Piece

/-!
# Forbidden characters

The scanner looks for forbidden characters behind the first character of an atom. So a symbol has
one nowhere but in front, and there it may be any but the double quote, which begins a string:

* `Token.scanFrom_invalidAtom`   an atom with a forbidden character behind its first is refused;
* `Token.scanFrom_forbidden`     an atom with one in front, and no other, is a symbol;
* `Token.forbidden_in_front`     both, wherever the atom stands, and what the symbols of a text are.
-/

namespace AnnotatedScheme

theorem eq_of_isForbidden {c : Char} (h : isForbidden c = true) :
    c ∈ ['\x7b', '\x7d', '"', ',', '\x60', '|', '\\'] := by
  simpa [isForbidden] using h

theorem endsAtom_of_isForbidden {c : Char} (h : isForbidden c = true) : endsAtom c = false := by
  have hnone : ['\x7b', '\x7d', '"', ',', '\x60', '|', '\\'].any endsAtom = false := by decide
  exact Bool.eq_false_iff.mpr (List.any_eq_false.mp hnone c (eq_of_isForbidden h))

/-- no sign, point or digit is forbidden -/
theorem Number.ofText?_eq_none_of_isForbidden {c : Char} (h : isForbidden c = true)
    (cs : List Char) : Number.ofText? (c :: cs) = none := by
  have hc := eq_of_isForbidden h
  simp only [List.mem_cons, List.not_mem_nil, or_false] at hc
  rcases hc with rfl | rfl | rfl | rfl | rfl | rfl | rfl <;> rfl

namespace Token

open Piece

variable {line : Nat} {c : Char} {cs rest : List Char}

/-- An atom is refused at the first forbidden character behind its first character. -/
theorem scanFrom_invalidAtom {body : List Char} {d : Char} (hbegins : beginsAtom c = true)
    (hbody : ∀ e ∈ body, endsAtom e = false ∧ isForbidden e = false) (hd : isForbidden d = true) :
    scanFrom line (c :: (body ++ d :: rest)) =
      .error (.reader ⟨.invalidAtom (String.ofList (c :: (body ++ [d]))), line⟩) := by
  obtain ⟨hblank, -, -, -, -, hsemi⟩ := endsAtom_eq_false_iff.mp (beginsAtom_iff.mp hbegins).1
  have hnewline : c ≠ '\n' := by
    rintro rfl
    exact absurd hblank (by decide)
  have hends := endsAtom_of_isForbidden hd
  have hlone : ¬(c = '.' ∧ (body ++ d :: rest).head?.all endsAtom = true) := by
    rintro ⟨-, hhead⟩
    cases body with
    | nil => exact absurd (hhead.symm.trans hends) (by decide)
    | cons e body =>
      exact absurd (hhead.symm.trans (hbody e List.mem_cons_self).1) (by decide)
  have htake : (body ++ d :: rest).takeWhile (fun e => !endsAtom e) =
      body ++ d :: rest.takeWhile fun e => !endsAtom e := by
    rw [List.takeWhile_append_of_pos fun e he => by simp [(hbody e he).1],
      List.takeWhile_cons_of_pos (by simp [hends])]
  have hfind : (body ++ d :: rest.takeWhile fun e => !endsAtom e).findIdx? isForbidden =
      some body.length := by
    rw [List.findIdx?_append, List.findIdx?_eq_none_iff.mpr fun e he => (hbody e he).2,
      List.findIdx?_cons, hd]
    simp
  have hbeginning : (body ++ d :: rest.takeWhile fun e => !endsAtom e).take (body.length + 1) =
      body ++ [d] := by
    rw [List.take_length_add_append]
    rfl
  have hshape : shapeOf line c (body ++ d :: rest) =
      .error (.reader ⟨.invalidAtom (String.ofList (c :: (body ++ [d]))), line⟩) := by
    rw [shapeOf_of_beginsAtom hbegins hlone, Atom.scan, htake, hfind]
    dsimp only
    rw [hbeginning]
    rfl
  rw [scanFrom, if_neg hnewline, hblank, if_neg Bool.false_ne_true, if_neg hsemi, hshape]
  rfl

/-- An atom that has a forbidden character in front, and no other, is a symbol. -/
theorem scanFrom_forbidden (hbegins : beginsAtom c = true) (hc : isForbidden c = true)
    (hcs : ∀ d ∈ cs, endsAtom d = false ∧ isForbidden d = false) (hrest : Stops rest) :
    scanFrom line (c :: (cs ++ rest)) = (scanFrom line rest).map
      (⟨.atom (.symbol (String.ofList (c :: cs))), line, String.ofList (c :: cs)⟩ :: ·) := by
  have hsharp : c ≠ '#' := by
    rintro rfl
    exact absurd hc (by decide)
  have hdot : c :: cs ≠ ['.'] := by
    intro heq
    obtain ⟨rfl, -⟩ := List.cons.inj heq
    exact absurd hc (by decide)
  have hvalue : Atom.ofLexeme (c :: cs) = .ok (.symbol (String.ofList (c :: cs))) :=
    Atom.ofLexeme_eq_symbol_iff.mpr ⟨hsharp, Number.ofText?_eq_none_of_isForbidden hc cs, rfl⟩
  have hcount : (c :: cs).count '\n' = 0 := by
    refine List.count_eq_zero.mpr fun hmem => ?_
    have hends : ∀ d ∈ c :: cs, endsAtom d = false :=
      List.forall_mem_cons.mpr ⟨endsAtom_of_isForbidden hc, fun d hd => (hcs d hd).1⟩
    exact absurd (hends '\n' hmem) (by decide)
  have hspells : Spells (c :: cs) (.atom (.symbol (String.ofList (c :: cs)))) rest.head? :=
    .atom hbegins hdot hcs hvalue hrest
  have hfits : Fits line rest.head?
      (.lexeme ⟨.atom (.symbol (String.ofList (c :: cs))), line, String.ofList (c :: cs)⟩) := by
    refine ⟨?_, ?_⟩
    · rw [String.toList_ofList, hcount, Nat.add_zero]
    · rwa [String.toList_ofList]
  have hscan := hfits.scanFrom_append
  rw [chars, String.toList_ofList, hcount] at hscan
  exact hscan

/-- behind some pieces of a text stands the first character of an atom, and more -/
structure AtomBehind (ps : List Piece) (c : Char) (more : List Char) (text : String) : Prop where
  cut : Cut (c :: more) 0 ps
  chars : charsAll ps ++ c :: more = text.toList
  begins : beginsAtom c = true

theorem AtomBehind.scan_eq {ps : List Piece} {more : List Char} {text : String}
    (h : AtomBehind ps c more text) :
    scan text = (scanFrom ((charsAll ps).count '\n') (c :: more)).map (Piece.tokens ps ++ ·) := by
  rw [scan, ← h.chars, h.cut.scanFrom_append, Nat.zero_add]

/-- A symbol of a text has no double quote, and no forbidden character behind its first one. Wherever
an atom stands, it is refused at the first forbidden character behind its first one, and a symbol if
its first character is forbidden and no other. -/
theorem forbidden_in_front (text : String) :
    (∀ tokens, scan text = .ok tokens → ∀ token ∈ tokens, ∀ name,
      token.shape = .atom (.symbol name) →
        '"' ∉ token.lexeme.toList ∧ ∀ d ∈ token.lexeme.toList.tail, isForbidden d = false) ∧
    (∀ ps c cs d rest, AtomBehind ps c (cs ++ d :: rest) text →
      (∀ e ∈ cs, endsAtom e = false ∧ isForbidden e = false) → isForbidden d = true →
        scan text = .error
          (.reader ⟨.invalidAtom (String.ofList (c :: (cs ++ [d]))), (charsAll ps).count '\n'⟩)) ∧
    ∀ ps c cs rest, AtomBehind ps c (cs ++ rest) text →
      (∀ e ∈ cs, endsAtom e = false ∧ isForbidden e = false) → Stops rest →
        isForbidden c = true → scan text =
          (scanFrom ((charsAll ps).count '\n') rest).map fun tokens =>
            Piece.tokens ps ++ ⟨.atom (.symbol (String.ofList (c :: cs))),
              (charsAll ps).count '\n', String.ofList (c :: cs)⟩ :: tokens := by
  refine ⟨?_, ?_, ?_⟩
  · intro tokens h token htoken name hshape
    obtain ⟨next, hspells⟩ := exists_spells_of_mem h htoken
    rw [hshape] at hspells
    generalize token.lexeme.toList = lexeme at hspells
    cases hspells with
    | atom hbegins _ hstays =>
      refine ⟨fun hmem => ?_, fun d hd => (hstays d hd).2⟩
      rcases List.mem_cons.mp hmem with rfl | hmem
      · exact absurd hbegins (by decide)
      · exact absurd (hstays '"' hmem).2 (by decide)
  · intro ps c cs d rest hatom hcs hd
    rw [hatom.scan_eq, scanFrom_invalidAtom hatom.begins hcs hd]
    rfl
  · intro ps c cs rest hatom hcs hrest hc
    rw [hatom.scan_eq, scanFrom_forbidden hatom.begins hc hcs hrest]
    cases scanFrom ((charsAll ps).count '\n') rest <;> rfl

/-- a brace in front of a symbol, and one inside of an atom -/
theorem forbidden_in_front_brace :
    scan "\x7bx" = .ok [⟨.atom (.symbol "\x7bx"), 0, "\x7bx"⟩] ∧
      scan "a\x7bx" = .error (.reader ⟨.invalidAtom "a\x7b", 0⟩) := by
  refine ⟨?_, ?_⟩
  · have hatom : AtomBehind [] '\x7b' (['x'] ++ []) "\x7bx" := ⟨trivial, by decide, by decide⟩
    have hbody : ∀ e ∈ ['x'], endsAtom e = false ∧ isForbidden e = false :=
      List.forall_mem_singleton.mpr (by decide)
    refine ((forbidden_in_front "\x7bx").2.2 [] _ _ [] hatom hbody rfl (by decide)).trans ?_
    rw [scanFrom]
    rfl
  · have hatom : AtomBehind [] 'a' ([] ++ '\x7b' :: ['x']) "a\x7bx" :=
      ⟨trivial, by decide, by decide⟩
    exact (forbidden_in_front "a\x7bx").2.1 [] _ [] _ _ hatom (List.forall_mem_nil _) (by decide)

end Token

end AnnotatedScheme
