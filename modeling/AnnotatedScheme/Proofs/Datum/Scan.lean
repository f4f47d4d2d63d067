import AnnotatedScheme.Datum.Reader
import AnnotatedScheme.Proofs.Lists
import AnnotatedScheme.Proofs.Datum.Symbol

/-!
# Written data are read back

`Token.Scans text shapes` says that a text is cut into tokens of these shapes wherever it stands, as
long as an atom can end behind it. Texts with that property are put together as data are written.

* `Datum.Spelled`     a text that is cut into tokens from which the reader makes the datum,
                      wherever it stands;
* `Datum.shapes`      the tokens of a written datum;
* `Datum.Readable`    data whose atoms are cut off as one token each, with dots only where they may
                      stand: their texts spell them (`Readable.spelled`).
-/

namespace AnnotatedScheme

namespace Token

def Scans (text : List Char) (shapes : List Shape) : Prop :=
  ∀ rest, Stops rest → ∀ line, ∃ tokens line', tokens.map Token.shape = shapes ∧
    ∀ more, scanFrom line' rest = .ok more → scanFrom line (text ++ rest) = .ok (tokens ++ more)

namespace Scans

variable {text text' : List Char} {shapes shapes' : List Shape}

theorem nil : Scans [] [] := fun _ _ line => ⟨[], line, rfl, fun _ h => h⟩

theorem append (h : Scans text shapes) (h' : Scans text' shapes')
    (hstops : ∀ rest, Stops rest → Stops (text' ++ rest)) :
    Scans (text ++ text') (shapes ++ shapes') := by
  intro rest hrest line
  obtain ⟨tokens, line', hshapes, hscan⟩ := h (text' ++ rest) (hstops rest hrest) line
  obtain ⟨tokens', line'', hshapes', hscan'⟩ := h' rest hrest line'
  have hall : (tokens ++ tokens').map Token.shape = shapes ++ shapes' := by
    rw [List.map_append, hshapes, hshapes']
  refine ⟨tokens ++ tokens', line'', hall, fun more hmore => ?_⟩
  rw [List.append_assoc, hscan _ (hscan' more hmore), List.append_assoc]

theorem blank (h : Scans text shapes) : Scans (' ' :: text) shapes := by
  intro rest hrest line
  obtain ⟨tokens, line', hshapes, hscan⟩ := h rest hrest line
  refine ⟨tokens, line', hshapes, fun more hmore => ?_⟩
  rw [List.cons_append, scanFrom, if_neg (by decide), if_pos (by decide), hscan more hmore]

/-- one token in front of a text -/
theorem token {c : Char} {cs : List Char} {shape : Shape} (h : Scans text shapes)
    (hc : isBlank c = false) (hsemi : c ≠ ';')
    (hshape : ∀ rest, Stops rest → ∀ line,
      shapeOf line c (cs ++ (text ++ rest)) = .ok (shape, cs.length)) :
    Scans (c :: cs ++ text) (shape :: shapes) := by
  intro rest hrest line
  obtain ⟨tokens, line', hshapes, hscan⟩ := h rest hrest (line + cs.count '\n')
  refine ⟨⟨shape, line + cs.count '\n', String.ofList (c :: cs)⟩ :: tokens, line',
    by rw [List.map_cons, hshapes], fun more hmore => ?_⟩
  have hnewline : c ≠ '\n' := by
    intro heq
    subst heq
    exact absurd hc (by decide)
  have hbehind : scanFrom (line + ((cs ++ (text ++ rest)).take cs.length).count '\n')
      ((cs ++ (text ++ rest)).drop cs.length) = .ok (tokens ++ more) := by
    simpa using hscan more hmore
  rw [List.append_assoc, List.cons_append, scanFrom, if_neg hnewline, hc,
    if_neg Bool.false_ne_true, if_neg hsemi, hshape rest hrest line]
  refine Except.bind_eq_ok_iff.mpr ⟨(shape, cs.length), rfl, ?_⟩
  refine Except.bind_eq_ok_iff.mpr ⟨tokens ++ more, hbehind, ?_⟩
  simp [pure, Except.pure]

theorem leftParen (h : Scans text shapes) : Scans ('(' :: text) (.leftParen :: shapes) := by
  show Scans (['('] ++ text) _
  exact token h (by decide) (by decide) fun _ _ _ => rfl

theorem rightParen : Scans [')'] [.rightParen] := by
  show Scans ([')'] ++ []) _
  exact token nil (by decide) (by decide) fun _ _ _ => rfl

/-- an atom other than a string -/
theorem lexeme {c : Char} {cs : List Char} {value : Atom} (hbegins : beginsAtom c = true)
    (hdot : c :: cs ≠ ['.']) (hbody : ∀ d ∈ cs, endsAtom d = false ∧ isForbidden d = false)
    (hvalue : Atom.ofLexeme (c :: cs) = .ok value) : Scans (c :: cs) [.atom value] := by
  obtain ⟨hblank, -, -, -, -, hsemi⟩ := endsAtom_eq_false_iff.mp (beginsAtom_iff.mp hbegins).1
  rw [← List.append_nil (c :: cs)]
  exact token nil hblank hsemi fun _ hrest line =>
    shapeOf_lexeme hbegins hdot hbody hvalue hrest line

theorem symbol {name : String} (h : isSymbolName name = true) :
    Scans name.toList [.atom (.symbol name)] := by
  obtain ⟨c, cs, hname, hbegins, hsharp, hdot, hbody, hnumber⟩ := isSymbolName_iff.mp h
  have hlone : c :: cs ≠ ['.'] := fun heq => hdot (String.toList_inj.mp (hname.trans heq))
  have hvalue : Atom.ofLexeme (c :: cs) = .ok (.symbol name) :=
    Atom.ofLexeme_eq_symbol_iff.mpr ⟨hsharp, hnumber, by rw [← hname, String.ofList_toList]⟩
  rw [hname]
  exact lexeme hbegins hlone hbody hvalue

/-- texts with a blank before each but the first -/
theorem spaced {ps : List (String × List Shape)} (h : ∀ p ∈ ps, Scans p.1.toList p.2) :
    Scans (" ".intercalate (ps.map Prod.fst)).toList (ps.flatMap Prod.snd) := by
  induction ps with
  | nil => exact .nil
  | cons p rest ih =>
    rw [List.forall_mem_cons] at h
    cases rest with
    | nil => simpa using h.1
    | cons next rest =>
      have htext : " ".intercalate ((p :: next :: rest).map Prod.fst) =
          p.1 ++ " " ++ " ".intercalate ((next :: rest).map Prod.fst) := by
        rw [List.map_cons, List.map_cons, String.intercalate_cons_cons]
      rw [htext, String.toList_append, String.toList_append, List.append_assoc]
      exact h.1.append (ih h.2).blank fun _ _ => rfl

theorem list {ps : List (String × List Shape)} (h : ∀ p ∈ ps, Scans p.1.toList p.2) :
    Scans ("(" ++ " ".intercalate (ps.map Prod.fst) ++ ")").toList
      (.leftParen :: ps.flatMap Prod.snd ++ [.rightParen]) := by
  rw [String.toList_append, String.toList_append]
  exact ((spaced h).append .rightParen fun _ _ => rfl).leftParen

theorem quote {c : Char} {cs : List Char} (h : Scans (c :: cs) shapes) (hc : isBlank c = false) :
    Scans ('\x27' :: c :: cs) (.quote :: shapes) := by
  show Scans (['\x27'] ++ (c :: cs)) _
  refine token h (by decide) (by decide) fun rest _ line => ?_
  simp [shapeOf, hc]

end Scans

end Token

/-! ## data -/

/-- the shape of the token of an atom -/
def Atom.shape (value : Atom) : Token.Shape := if value = .symbol "." then .dot else .atom value

namespace Datum

mutual
def shapes : Datum → List Token.Shape
  | .atom value => [value.shape]
  | .list items => .leftParen :: shapesAll items ++ [.rightParen]
  | .gap => []

def shapesAll : List Datum → List Token.Shape
  | [] => []
  | d :: rest => d.shapes ++ shapesAll rest
end

inductive Readable : Datum → Prop
  | atom {value : Atom} (h : Token.Scans value.text.toList [value.shape]) : Readable (.atom value)
  | list {items : List Datum} (h : ∀ d ∈ items, Readable d) (hdots : checkDots items = .ok ()) :
      Readable (.list items)

theorem shapesAll_eq_flatMap (items : List Datum) : shapesAll items = items.flatMap shapes := by
  induction items with
  | nil => rfl
  | cons d rest ih => rw [shapesAll, ih, List.flatMap_cons]

theorem scans_list {items : List Datum} (h : ∀ d ∈ items, Token.Scans d.text.toList d.shapes) :
    Token.Scans (Datum.list items).text.toList (Datum.list items).shapes := by
  have hlist := Token.Scans.list
    (List.forall_mem_map (f := fun d : Datum => (d.text, d.shapes)).mpr h)
  rw [List.map_map, List.flatMap_map] at hlist
  rw [text, shapes, texts_eq_map, shapesAll_eq_flatMap]
  exact hlist

theorem Readable.scans {d : Datum} (h : d.Readable) : Token.Scans d.text.toList d.shapes := by
  induction h with
  | atom h => exact h
  | list _ _ ih => exact scans_list ih

/-! ## dots -/

theorem isDot_eq_true_iff {d : Datum} : d.isDot = true ↔ d = dot := isSymbol_iff

/-- Dots are in their place if there are none, or one before the last item and not in front. -/
theorem checkDots_eq_ok_iff {items : List Datum} :
    checkDots items = .ok () ↔ (∀ d ∈ items, d.isDot = false) ∨
      ∃ front last, items = front ++ [dot, last] ∧ front ≠ [] ∧
        (∀ d ∈ front, d.isDot = false) ∧ last.isDot = false := by
  have hcount : ∀ {ds : List Datum}, ds.countP isDot = 0 ↔ ∀ d ∈ ds, d.isDot = false := by
    intro ds
    rw [List.countP_eq_zero]
    simp only [Bool.not_eq_true]
  have hdot : dot.isDot = true := isDot_eq_true_iff.mpr rfl
  refine ⟨fun h => ?_, fun h => ?_⟩
  · unfold checkDots at h
    split at h
    · cases h
    rename_i hone
    split at h
    · rename_i i hfind
      split at h
      · rename_i hplace
        right
        -- the first dot is followed by the last item, and there is no other dot
        obtain ⟨a, last, hback⟩ : ∃ a last, items.drop i = [a, last] := by
          have hlength : (items.drop i).length = 2 := by rw [List.length_drop]; omega
          match items.drop i, hlength with
          | [a, last], _ => exact ⟨a, last, rfl⟩
        have hitems : items = items.take i ++ [a, last] := by rw [← hback, List.take_append_drop]
        obtain ⟨hlt, hi, -⟩ := List.findIdx?_eq_some_iff_getElem.mp hfind
        obtain rfl : a = dot := by
          rw [List.drop_eq_getElem_cons hlt] at hback
          obtain ⟨rfl, -⟩ := List.cons.inj hback
          exact isDot_eq_true_iff.mp hi
        have hsum :
            items.countP isDot = (items.take i).countP isDot + (1 + [last].countP isDot) := by
          conv => lhs; rw [hitems]
          rw [List.countP_append, List.countP_cons, hdot]
          simp [Nat.add_comm]
        refine ⟨items.take i, last, hitems, ?_, hcount.mp (by omega), ?_⟩
        · intro hnil
          rcases List.take_eq_nil_iff.mp hnil with h | h
          · exact hplace.2 h
          · rw [h] at hlt
            cases hlt
        · exact hcount.mp (show [last].countP isDot = 0 by omega) last List.mem_cons_self
      · cases h
    · rename_i hfind
      exact .inl (List.findIdx?_eq_none_iff.mp hfind)
  · rcases h with h | ⟨front, last, rfl, hfront, hnone, hlast⟩
    · rw [checkDots, hcount.mpr h, List.findIdx?_eq_none_iff.mpr h]
      rfl
    · have hsum : (front ++ [dot, last]).countP isDot = 1 := by
        rw [List.countP_append, hcount.mpr hnone]
        simp [hdot, hlast]
      have hfind : (front ++ [dot, last]).findIdx? isDot = some front.length := by
        rw [List.findIdx?_append, List.findIdx?_eq_none_iff.mpr hnone, List.findIdx?_cons, hdot]
        simp
      have hplace : front.length + 2 = (front ++ [dot, last]).length ∧ front.length ≠ 0 :=
        ⟨by simp, fun h => hfront (List.length_eq_zero_iff.mp h)⟩
      rw [checkDots, hsum, hfind]
      exact if_pos hplace

/-! ## readable data -/

theorem readable_symbol {name : String} (h : isSymbolName name = true) :
    (symbol name).Readable := by
  have hshape : Atom.shape (.symbol name) = .atom (.symbol name) := by
    refine if_neg fun heq => ?_
    obtain rfl := Atom.symbol.inj heq
    exact absurd h (by decide)
  exact .atom (hshape ▸ .symbol h)

theorem isDot_symbol {name : String} (h : isSymbolName name = true) :
    (symbol name).isDot = false := by
  refine Bool.eq_false_iff.mpr fun hdot => ?_
  obtain rfl := Atom.symbol.inj (Datum.atom.inj (isSymbol_iff.mp hdot))
  exact absurd h (by decide)

/-- the written form of a list without dots -/
theorem readable_list {items : List Datum} (h : ∀ d ∈ items, d.Readable ∧ d.isDot = false) :
    (list items).Readable :=
  .list (fun d hd => (h d hd).1) (checkDots_eq_ok_iff.mpr (.inl fun d hd => (h d hd).2))

/-! ## reading -/

section

variable {token : Token} {pending : List Pending} {done : List Datum} {rest : List Token}

theorem ofTokensFrom_leftParen (h : token.shape = .leftParen) :
    ofTokensFrom pending done (token :: rest) =
      ofTokensFrom (.list token.line [] :: pending) done rest := by
  rw [ofTokensFrom.eq_def]
  simp only [h]

theorem ofTokensFrom_rightParen (h : token.shape = .rightParen) {line : Nat} {items : List Datum}
    (hdots : checkDots items.reverse = .ok ()) :
    ofTokensFrom (.list line items :: pending) done (token :: rest) =
      ofTokensFrom (place (.list items.reverse) pending done).1
        (place (.list items.reverse) pending done).2 rest := by
  rw [ofTokensFrom.eq_def]
  simp only [h, close, hdots]

theorem ofTokensFrom_atom {value : Atom} (h : token.shape = value.shape) :
    ofTokensFrom pending done (token :: rest) =
      ofTokensFrom (place (.atom value) pending done).1 (place (.atom value) pending done).2
        rest := by
  rw [ofTokensFrom.eq_def]
  by_cases hdot : value = .symbol "."
  · simp only [h, Atom.shape, hdot, if_true]
  · simp only [h, Atom.shape, hdot, if_false]

end

/-- tokens that put a datum in its place -/
def Places (shapes : List Token.Shape) (d : Datum) : Prop :=
  ∀ tokens : List Token, tokens.map Token.shape = shapes → ∀ pending done more,
    ofTokensFrom pending done (tokens ++ more) =
      ofTokensFrom (place d pending done).1 (place d pending done).2 more

theorem places_atom (value : Atom) : Places [value.shape] (.atom value) := by
  intro tokens htokens pending done more
  obtain ⟨token, rfl, hshape⟩ := List.map_eq_singleton_iff.mp htokens
  exact ofTokensFrom_atom hshape

theorem places_quote {shapes : List Token.Shape} {d : Datum} (h : Places shapes d) :
    Places (.quote :: shapes) (quote d) := by
  intro tokens htokens pending done more
  obtain ⟨token, tokens, rfl, hshape, htokens⟩ := List.map_eq_cons_iff.mp htokens
  rw [List.cons_append, ofTokensFrom.eq_def]
  simp only [hshape]
  rw [h tokens htokens, place]

/-- The tokens of the items of an open list put the items into it. -/
theorem ofTokensFrom_items {ps : List (List Token.Shape × Datum)} (h : ∀ p ∈ ps, Places p.1 p.2)
    {tokens : List Token} (htokens : tokens.map Token.shape = ps.flatMap Prod.fst) (line : Nat)
    (front : List Datum) (pending : List Pending) (done : List Datum) (more : List Token) :
    ofTokensFrom (.list line front :: pending) done (tokens ++ more) =
      ofTokensFrom (.list line ((ps.map Prod.snd).reverse ++ front) :: pending) done more := by
  induction ps generalizing tokens front with
  | nil =>
    obtain rfl := List.map_eq_nil_iff.mp htokens
    rfl
  | cons p rest ih =>
    rw [List.forall_mem_cons] at h
    obtain ⟨first, second, rfl, hfirst, hsecond⟩ := List.map_eq_append_iff.mp htokens
    rw [List.append_assoc, h.1 first hfirst, place, ih h.2 hsecond, List.map_cons,
      List.reverse_cons, List.append_assoc, List.singleton_append]

theorem places_list {ps : List (List Token.Shape × Datum)} (h : ∀ p ∈ ps, Places p.1 p.2)
    (hdots : checkDots (ps.map Prod.snd) = .ok ()) :
    Places (.leftParen :: ps.flatMap Prod.fst ++ [.rightParen]) (.list (ps.map Prod.snd)) := by
  intro tokens htokens pending done more
  obtain ⟨opening, tokens, rfl, hopening, htokens⟩ := List.map_eq_cons_iff.mp htokens
  obtain ⟨inner, last, rfl, hinner, hlast⟩ := List.map_eq_append_iff.mp htokens
  obtain ⟨closing, rfl, hclosing⟩ := List.map_eq_singleton_iff.mp hlast
  rw [← List.reverse_reverse (ps.map Prod.snd)] at hdots
  rw [List.cons_append, List.append_assoc, List.singleton_append, ofTokensFrom_leftParen hopening,
    ofTokensFrom_items h hinner, List.append_nil, ofTokensFrom_rightParen hclosing hdots,
    List.reverse_reverse]

theorem Readable.places {d : Datum} (h : d.Readable) : Places d.shapes d := by
  induction h with
  | atom => exact places_atom _
  | @list items _ hdots ih =>
    have hmap : (items.map fun d => (d.shapes, d)).map Prod.snd = items := by
      rw [List.map_map]
      exact List.map_id items
    have hlist := places_list (List.forall_mem_map (f := fun d : Datum => (d.shapes, d)).mpr ih)
      (hmap.symm ▸ hdots)
    rw [hmap, List.flatMap_map, ← shapesAll_eq_flatMap] at hlist
    exact hlist

/-! ## spelling -/

def Spelled (text : String) (d : Datum) : Prop :=
  ∃ shapes, Token.Scans text.toList shapes ∧ Places shapes d

theorem Readable.spelled {d : Datum} (h : d.Readable) : Spelled d.text d :=
  ⟨d.shapes, h.scans, h.places⟩

namespace Spelled

theorem list {ps : List (String × Datum)} (h : ∀ p ∈ ps, Spelled p.1 p.2)
    (hdots : checkDots (ps.map Prod.snd) = .ok ()) :
    Spelled ("(" ++ " ".intercalate (ps.map Prod.fst) ++ ")") (.list (ps.map Prod.snd)) := by
  -- the tokens of each item are chosen
  obtain ⟨items, rfl, hitems⟩ := exists_map_of_forall
    (f := fun item : String × List Token.Shape × Datum => (item.1, item.2.2))
    (P := fun item => Token.Scans item.1.toList item.2.1 ∧ Places item.2.1 item.2.2)
    fun p hp => by
      obtain ⟨shapes, hscans, hplaces⟩ := h p hp
      exact ⟨(p.1, shapes, p.2), rfl, hscans, hplaces⟩
  have hscans := Token.Scans.list (List.forall_mem_map
    (f := fun item : String × List Token.Shape × Datum => (item.1, item.2.1)).mpr
      fun item hitem => (hitems item hitem).1)
  have hplaces := places_list (List.forall_mem_map (P := fun p => Places p.1 p.2)
    (f := fun item : String × List Token.Shape × Datum => item.2).mpr
      fun item hitem => (hitems item hitem).2) (by rwa [List.map_map] at hdots ⊢)
  rw [List.map_map, List.flatMap_map] at hscans hplaces
  rw [List.map_map, List.map_map]
  exact ⟨_, hscans, hplaces⟩

theorem quote {text : String} {d : Datum} (h : Spelled text d)
    (hstart : text.toList.head?.any fun c => !isBlank c) :
    Spelled ("'" ++ text) (.quote d) := by
  obtain ⟨shapes, hscans, hplaces⟩ := h
  refine ⟨.quote :: shapes, ?_, places_quote hplaces⟩
  rw [String.toList_append]
  cases htext : text.toList with
  | nil =>
    rw [htext] at hstart
    cases hstart
  | cons c cs =>
    rw [htext] at hstart hscans
    exact hscans.quote (by simpa using hstart)

theorem read {text : String} {d : Datum} (h : Spelled text d) : read text = .ok d := by
  obtain ⟨shapes, hscans, hplaces⟩ := h
  obtain ⟨tokens, line, hshapes, hscan⟩ := hscans [] rfl 0
  have hscan := hscan [] (by rw [Token.scanFrom])
  rw [List.append_nil, List.append_nil] at hscan
  have hdata := hplaces tokens hshapes [] [] []
  rw [List.append_nil] at hdata
  have hall : readAll text = .ok [d] :=
    readAll_eq_ok_iff.mpr ⟨tokens, hscan, hdata⟩
  exact Except.bind_eq_ok_iff.mpr ⟨[d], hall, rfl⟩

end Spelled

end Datum

end AnnotatedScheme
