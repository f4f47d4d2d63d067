import AnnotatedScheme.Proofs.Datum.Joined

/-!
# Lexemes

What a token is made of can be said without the scanner: `Token.Spells lexeme shape next` holds of
the characters of a token, its shape, and the character behind it, if there is one. Only quotes,
dots and atoms other than strings depend on what is behind them.

* `Token.shapeOf_eq_ok_iff`   the scanner cuts off a token exactly where there is a lexeme;
* `Spells.stops_of_isBare`    a symbol, a number or a boolean goes up to what ends an atom;
* `Spells.of_endsAtom`        what ends an atom can be put behind every token but a quote.
-/

namespace AnnotatedScheme

/-! ## strings -/

namespace Quoted

/-! A string is read from its own characters alone. -/

mutual
theorem decode_take {body : Body} :
    ∀ {text : List Char}, decode text = .ok body → decode (text.take body.length) = .ok body
  | [], h => by cases h
  | c :: rest, h => by
    rw [decode] at h
    split at h
    · rename_i hquote
      obtain rfl := Except.ok.inj h
      rw [List.take_succ_cons, decode, if_pos hquote]
    rename_i hquote
    split at h
    · rename_i hbackslash
      obtain ⟨shorter, hshorter, rfl⟩ := Reading.later_eq_ok h
      rw [List.take_succ_cons, decode, if_neg hquote, if_pos hbackslash,
        decodeEscape_take hshorter]
      rfl
    · rename_i hbackslash
      obtain ⟨shorter, hshorter, rfl⟩ := Reading.push_eq_ok h
      rw [List.take_succ_cons, decode, if_neg hquote, if_neg hbackslash, decode_take hshorter]
      rfl

theorem decodeEscape_take {body : Body} :
    ∀ {text : List Char},
      decodeEscape text = .ok body → decodeEscape (text.take body.length) = .ok body
  | [], h => by cases h
  | c :: rest, h => by
    rw [decodeEscape] at h
    split at h
    · rename_i d hescape
      obtain ⟨shorter, hshorter, rfl⟩ := Reading.push_eq_ok h
      rw [List.take_succ_cons, decodeEscape, hescape]
      dsimp only
      rw [decode_take hshorter]
      rfl
    · cases h
end

theorem decode_append_iff {text more content : List Char} :
    decode (text ++ more) = .ok ⟨content, text.length⟩ ↔
      decode text = .ok ⟨content, text.length⟩ := by
  refine ⟨fun h => ?_, decode_append⟩
  have htake := decode_take h
  rwa [List.take_left] at htake

end Quoted

/-! ## atoms -/

theorem takeWhile_endsAtom_iff {cs rest : List Char} :
    (cs ++ rest).takeWhile (fun d => !endsAtom d) = cs ↔
      (∀ d ∈ cs, endsAtom d = false) ∧ Stops rest := by
  refine ⟨fun h => ?_, fun ⟨hcs, hrest⟩ => takeWhile_endsAtom hcs hrest⟩
  induction cs with
  | nil =>
    refine ⟨List.forall_mem_nil _, ?_⟩
    cases rest with
    | nil => rfl
    | cons d rest =>
      cases hd : endsAtom d with
      | true => simpa [Stops] using hd
      | false => simp [hd] at h
  | cons c cs ih =>
    cases hc : endsAtom c with
    | true => simp [hc] at h
    | false =>
      rw [List.cons_append, List.takeWhile_cons_of_pos (by simp [hc])] at h
      obtain ⟨hcs, hrest⟩ := ih (List.cons.inj h).2
      exact ⟨List.forall_mem_cons.mpr ⟨hc, hcs⟩, hrest⟩

/-- An atom is cut off where it ends, if there is no forbidden character behind its first. -/
theorem Atom.scan_eq_ok_iff {c : Char} {cs rest : List Char} {value : Atom} :
    Atom.scan c (cs ++ rest) = .ok (value, cs.length) ↔
      (∀ d ∈ cs, endsAtom d = false ∧ isForbidden d = false) ∧ Stops rest ∧
        Atom.ofLexeme (c :: cs) = .ok value := by
  refine ⟨fun h => ?_, fun ⟨hstays, hrest, hvalue⟩ => ?_⟩
  · unfold Atom.scan at h
    dsimp only at h
    split at h
    · cases h
    rename_i hforbidden
    cases hatom : Atom.ofLexeme (c :: (cs ++ rest).takeWhile fun d => !endsAtom d) with
    | error cause =>
      rw [hatom] at h
      cases h
    | ok atom =>
      rw [hatom] at h
      obtain ⟨rfl, hlength⟩ := Prod.mk.inj (Except.ok.inj h)
      -- the atom and the lexeme begin alike and have the same length
      have hbody : (cs ++ rest).takeWhile (fun d => !endsAtom d) = cs := by
        have hprefix := List.takeWhile_prefix (fun d => !endsAtom d) (l := cs ++ rest)
        rw [List.prefix_iff_eq_take.mp hprefix, hlength, List.take_left]
      rw [hbody] at hforbidden hatom
      obtain ⟨hends, hrest⟩ := takeWhile_endsAtom_iff.mp hbody
      exact ⟨fun d hd => ⟨hends d hd, List.findIdx?_eq_none_iff.mp hforbidden d hd⟩, hrest, hatom⟩
  · have hforbidden : cs.findIdx? isForbidden = none :=
      List.findIdx?_eq_none_iff.mpr fun d hd => (hstays d hd).2
    rw [Atom.scan, takeWhile_endsAtom (fun d hd => (hstays d hd).1) hrest, hforbidden, hvalue]
    rfl

/-! ## tokens -/

namespace Token

/-- a symbol, a number or a boolean -/
def Shape.isBare : Shape → Bool
  | .atom (.string _) => false
  | .atom _ => true
  | _ => false

/-- a lexeme, the shape of its token, and the character behind it -/
inductive Spells : List Char → Shape → Option Char → Prop
  | leftParen {c : Char} {next : Option Char} (h : c = '(' ∨ c = '[') : Spells [c] .leftParen next
  | rightParen {c : Char} {next : Option Char} (h : c = ')' ∨ c = ']') : Spells [c] .rightParen next
  | quote {next : Option Char} (h : (next.any fun d => !isBlank d) = true) :
      Spells ['\x27'] .quote next
  | dot {next : Option Char} (h : next.all endsAtom = true) : Spells ['.'] .dot next
  | string {cs content : List Char} {next : Option Char}
      (h : Quoted.decode cs = .ok ⟨content, cs.length⟩) :
      Spells ('"' :: cs) (.atom (.string (String.ofList content))) next
  | atom {c : Char} {cs : List Char} {value : Atom} {next : Option Char}
      (begins : beginsAtom c = true) (not_dot : c :: cs ≠ ['.'])
      (stays : ∀ d ∈ cs, endsAtom d = false ∧ isForbidden d = false)
      (reads : Atom.ofLexeme (c :: cs) = .ok value) (ends : next.all endsAtom = true) :
      Spells (c :: cs) (.atom value) next

variable {line : Nat} {c : Char} {cs rest : List Char} {shape : Shape}

theorem scanString_eq_ok_iff {value : Atom} :
    scanString line (cs ++ rest) = .ok (value, cs.length) ↔
      ∃ content, value = .string (String.ofList content) ∧
        Quoted.decode cs = .ok ⟨content, cs.length⟩ := by
  unfold scanString
  refine ⟨fun h => ?_, ?_⟩
  · split at h
    · rename_i body hdecode
      obtain ⟨hvalue, hlength⟩ := Prod.mk.inj (Except.ok.inj h)
      obtain ⟨content, length⟩ := body
      obtain rfl : length = cs.length := hlength
      exact ⟨content, hvalue.symm, Quoted.decode_append_iff.mp hdecode⟩
    · cases h
    · cases h
  · rintro ⟨content, rfl, hdecode⟩
    rw [Quoted.decode_append_iff.mpr hdecode]

/-- where a scanner cuts off a single character -/
theorem eq_nil_of_ok {s : Shape}
    (h : (.ok (s, 0) : Except (Unread ReadError) (Shape × Nat)) = .ok (shape, cs.length)) :
    s = shape ∧ cs = [] := by
  obtain ⟨hshape, hlength⟩ := Prod.mk.inj (Except.ok.inj h)
  exact ⟨hshape, List.length_eq_zero_iff.mp hlength.symm⟩

/-- A token is cut off exactly where there is a lexeme. -/
theorem shapeOf_eq_ok_iff (hblank : isBlank c = false) (hsemi : c ≠ ';') :
    shapeOf line c (cs ++ rest) = .ok (shape, cs.length) ↔ Spells (c :: cs) shape rest.head? := by
  refine ⟨fun h => ?_, fun h => ?_⟩
  · unfold shapeOf at h
    split at h
    · rename_i hleft
      obtain ⟨rfl, rfl⟩ := eq_nil_of_ok h
      exact .leftParen hleft
    rename_i hleft
    split at h
    · rename_i hright
      obtain ⟨rfl, rfl⟩ := eq_nil_of_ok h
      exact .rightParen hright
    rename_i hright
    split at h
    · rename_i hquote
      split at h
      · rename_i hnext
        obtain ⟨rfl, rfl⟩ := eq_nil_of_ok h
        exact hquote ▸ .quote hnext
      · cases h
    rename_i hquote
    split at h
    · rename_i hstring
      cases hscan : scanString line (cs ++ rest) with
      | error e =>
        rw [hscan] at h
        cases h
      | ok p =>
        obtain ⟨value, n⟩ := p
        rw [hscan] at h
        obtain ⟨rfl, rfl⟩ := Prod.mk.inj (Except.ok.inj h)
        obtain ⟨content, rfl, hdecode⟩ := scanString_eq_ok_iff.mp hscan
        exact hstring ▸ .string hdecode
    rename_i hstring
    split at h
    · rename_i hdot
      obtain ⟨rfl, rfl⟩ := eq_nil_of_ok h
      exact hdot.1 ▸ .dot hdot.2
    rename_i hdot
    split at h
    · rename_i value n hscan
      obtain ⟨rfl, rfl⟩ := Prod.mk.inj (Except.ok.inj h)
      obtain ⟨hstays, hrest, hvalue⟩ := Atom.scan_eq_ok_iff.mp hscan
      have hends : endsAtom c = false := by
        rw [not_or] at hleft hright
        exact endsAtom_eq_false_iff.mpr ⟨hblank, hleft.1, hright.1, hleft.2, hright.2, hsemi⟩
      refine .atom (beginsAtom_iff.mpr ⟨hends, hquote, hstring⟩) (fun heq => hdot ?_) hstays hvalue
        hrest
      obtain ⟨rfl, rfl⟩ := List.cons.inj heq
      exact ⟨rfl, hrest⟩
    · cases h
  · generalize hlexeme : c :: cs = lexeme at h
    generalize hnext : rest.head? = next at h
    cases h with
    | leftParen h =>
      obtain ⟨rfl, rfl⟩ := List.cons.inj hlexeme
      exact if_pos h
    | rightParen h =>
      obtain ⟨rfl, rfl⟩ := List.cons.inj hlexeme
      rcases h with rfl | rfl <;> rfl
    | quote h =>
      obtain ⟨rfl, rfl⟩ := List.cons.inj hlexeme
      subst hnext
      exact if_pos h
    | dot h =>
      obtain ⟨rfl, rfl⟩ := List.cons.inj hlexeme
      subst hnext
      rw [shapeOf, if_neg (by decide), if_neg (by decide), if_neg (by decide), if_neg (by decide)]
      exact if_pos ⟨rfl, h⟩
    | string h =>
      obtain ⟨rfl, rfl⟩ := List.cons.inj hlexeme
      have hscan : scanString line (cs ++ rest) = .ok (_, cs.length) :=
        scanString_eq_ok_iff.mpr ⟨_, rfl, h⟩
      show ((scanString line (cs ++ rest)).map _).mapError _ = _
      rw [hscan]
      rfl
    | atom hbegins hdot hstays hvalue hends =>
      obtain ⟨rfl, rfl⟩ := List.cons.inj hlexeme
      subst hnext
      exact shapeOf_lexeme hbegins hdot hstays hvalue hends line

namespace Spells

variable {lexeme : List Char} {next : Option Char}

theorem exists_cons (h : Spells lexeme shape next) :
    ∃ c cs, lexeme = c :: cs ∧ isBlank c = false ∧ c ≠ ';' := by
  cases h with
  | leftParen h => rcases h with rfl | rfl <;> exact ⟨_, _, rfl, by decide, by decide⟩
  | rightParen h => rcases h with rfl | rfl <;> exact ⟨_, _, rfl, by decide, by decide⟩
  | quote | dot | string => exact ⟨_, _, rfl, by decide, by decide⟩
  | atom hbegins =>
    obtain ⟨hblank, -, -, -, -, hsemi⟩ := endsAtom_eq_false_iff.mp (beginsAtom_iff.mp hbegins).1
    exact ⟨_, _, rfl, hblank, hsemi⟩

/-- what is behind a token other than a quote can as well be what ends an atom -/
theorem of_endsAtom (h : Spells lexeme shape next) (hquote : shape ≠ .quote) {c : Char}
    (hc : endsAtom c = true) : Spells lexeme shape (some c) := by
  cases h with
  | leftParen h => exact .leftParen h
  | rightParen h => exact .rightParen h
  | quote => exact absurd rfl hquote
  | dot => exact .dot hc
  | string h => exact .string h
  | atom hbegins hdot hstays hreads => exact .atom hbegins hdot hstays hreads hc

theorem stops_of_isBare (h : Spells lexeme shape next) (hbare : shape.isBare = true) :
    next.all endsAtom = true := by
  cases h with
  | atom _ _ _ _ hends => exact hends
  | leftParen | rightParen | quote | dot | string => cases hbare

/-- the atom of a lexeme that begins like one -/
theorem of_beginsAtom (h : Spells (c :: cs) shape next) (hbegins : beginsAtom c = true)
    (hdot : c :: cs ≠ ['.']) :
    (∀ d ∈ cs, endsAtom d = false ∧ isForbidden d = false) ∧
      ∃ value, shape = .atom value ∧ Atom.ofLexeme (c :: cs) = .ok value := by
  cases h with
  | leftParen h => rcases h with rfl | rfl <;> exact absurd hbegins (by decide)
  | rightParen h => rcases h with rfl | rfl <;> exact absurd hbegins (by decide)
  | quote => exact absurd hbegins (by decide)
  | dot => exact absurd rfl hdot
  | string => exact absurd hbegins (by decide)
  | atom _ _ hstays hreads => exact ⟨hstays, _, rfl, hreads⟩

theorem isSymbolName {name : String} (h : Spells lexeme (.atom (.symbol name)) next) :
    isSymbolName name = true := by
  cases h with
  | atom hbegins hdot hstays hreads =>
    obtain ⟨hsharp, hnumber, rfl⟩ := Atom.ofLexeme_eq_symbol_iff.mp hreads
    refine isSymbolName_iff.mpr ⟨_, _, String.toList_ofList, hbegins, hsharp, fun heq => ?_, hstays,
      hnumber⟩
    exact hdot (String.ofList_inj.mp heq)

theorem ofText? {x : Number} (h : Spells lexeme (.atom (.number x)) next) :
    Number.ofText? lexeme = some (.ok x) := by
  cases h with
  | atom _ _ _ hreads => exact (Atom.ofLexeme_eq_number_iff.mp hreads).2

end Spells

end Token

end AnnotatedScheme
