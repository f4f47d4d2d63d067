import AnnotatedScheme.Proofs.Datum.Lexeme

/-!
# A text in pieces

The scanner cuts a text into pieces: blanks, comments, and the lexemes of tokens.

* `Piece.Fits`                 what a piece has to be in front of the next character;
* `Piece.Cut`                  pieces one behind the other, in front of the rest of a text;
* `Cut.scanFrom_append`        in front of any rest, the tokens of such pieces are cut off;
* `Token.scanFrom_eq_ok_iff`   a text is scanned exactly if it is made of such pieces;
* `Token.scan_eq_ok_iff_pieces`  what the pieces of a scanned text are, and in which lines its
                               tokens stand.
-/

namespace AnnotatedScheme

inductive Piece
  | blank (c : Char)
  /-- what follows a semicolon in its line -/
  | comment (body : List Char)
  | lexeme (token : Token)

namespace Piece

def chars : Piece → List Char
  | .blank c => [c]
  | .comment body => ';' :: body
  | .lexeme token => token.lexeme.toList

def token? : Piece → Option Token
  | .lexeme token => some token
  | _ => none

def charsAll (ps : List Piece) : List Char := ps.flatMap chars

def tokens (ps : List Piece) : List Token := ps.filterMap token?

/-- whether a piece can stand in front of the next character, behind so many line ends -/
def Fits (line : Nat) (next : Option Char) : Piece → Prop
  | .blank c => isBlank c = true
  | .comment body => '\n' ∉ body ∧ ∀ c ∈ next, c = '\n'
  | .lexeme token =>
    token.line = line + token.lexeme.toList.count '\n' ∧
      Token.Spells token.lexeme.toList token.shape next

/-- pieces one behind the other, from a line on and in front of the rest of a text -/
def Cut (rest : List Char) : Nat → List Piece → Prop
  | _, [] => True
  | line, p :: ps =>
    p.Fits line (charsAll ps ++ rest).head? ∧ Cut rest (line + p.chars.count '\n') ps

theorem charsAll_cons (p : Piece) (ps : List Piece) : charsAll (p :: ps) = p.chars ++ charsAll ps :=
  rfl

theorem charsAll_append (ps qs : List Piece) : charsAll (ps ++ qs) = charsAll ps ++ charsAll qs :=
  List.flatMap_append

theorem tokens_cons (p : Piece) (ps : List Piece) :
    tokens (p :: ps) = p.token?.toList ++ tokens ps := by
  cases p <;> rfl

theorem tokens_append (ps qs : List Piece) : tokens (ps ++ qs) = tokens ps ++ tokens qs :=
  List.filterMap_append

/-! ## scanning pieces -/

theorem map_nil_append {ε α : Type} (x : Except ε (List α)) : x.map ([] ++ ·) = x := by
  cases x <;> rfl

theorem dropWhile_comment {body behind : List Char} (h : '\n' ∉ body)
    (hbehind : ∀ c ∈ behind.head?, c = '\n') :
    (body ++ behind).dropWhile (fun d => decide (d ≠ '\n')) = behind := by
  rw [List.dropWhile_append_of_pos fun d hd => decide_eq_true (ne_of_mem_of_not_mem hd h)]
  cases behind with
  | nil => rfl
  | cons c rest =>
    obtain rfl := hbehind c rfl
    rfl

/-- One piece is cut off, in front of any rest. -/
theorem Fits.scanFrom_append {line : Nat} {p : Piece} {rest : List Char}
    (h : p.Fits line rest.head?) :
    Token.scanFrom line (p.chars ++ rest) =
      (Token.scanFrom (line + p.chars.count '\n') rest).map (p.token?.toList ++ ·) := by
  cases p with
  | blank c =>
    show Token.scanFrom line (c :: rest) =
      (Token.scanFrom (line + [c].count '\n') rest).map ([] ++ ·)
    rw [Token.scanFrom, map_nil_append]
    by_cases hnewline : c = '\n'
    · subst hnewline
      rfl
    · have hblank : isBlank c = true := h
      rw [if_neg hnewline, if_pos hblank, List.count_cons_of_ne hnewline, List.count_nil]
      rfl
  | comment body =>
    have hcount : (';' :: body).count '\n' = 0 := by
      rw [List.count_cons_of_ne (by decide), List.count_eq_zero.mpr h.1]
    show Token.scanFrom line (';' :: (body ++ rest)) =
      (Token.scanFrom (line + (';' :: body).count '\n') rest).map ([] ++ ·)
    rw [Token.scanFrom, if_neg (by decide), if_neg (by decide), if_pos rfl,
      dropWhile_comment h.1 h.2, hcount, map_nil_append]
    rfl
  | lexeme token =>
    obtain ⟨shape, last, lexeme⟩ := token
    obtain ⟨hline, hspells⟩ := h
    dsimp only at hline hspells
    subst hline
    obtain ⟨c, cs, hlexeme, hblank, hsemi⟩ := hspells.exists_cons
    rw [hlexeme] at hspells
    have hnewline : c ≠ '\n' := by
      rintro rfl
      exact absurd hblank (by decide)
    have hshape : Token.shapeOf line c (cs ++ rest) = .ok (shape, cs.length) :=
      (Token.shapeOf_eq_ok_iff hblank hsemi).mpr hspells
    have hcount : (c :: cs).count '\n' = cs.count '\n' := List.count_cons_of_ne hnewline
    show Token.scanFrom line (lexeme.toList ++ rest) =
      (Token.scanFrom (line + lexeme.toList.count '\n') rest).map
        ([⟨shape, line + lexeme.toList.count '\n', lexeme⟩] ++ ·)
    rw [hlexeme, hcount, List.cons_append, Token.scanFrom, if_neg hnewline, hblank,
      if_neg Bool.false_ne_true, if_neg hsemi, hshape]
    show (Token.scanFrom (line + ((cs ++ rest).take cs.length).count '\n')
      ((cs ++ rest).drop cs.length) >>= fun tokens => Except.ok (⟨shape,
        line + ((cs ++ rest).take cs.length).count '\n',
        String.ofList (c :: (cs ++ rest).take cs.length)⟩ :: tokens)) = _
    rw [List.take_left, List.drop_left, ← hlexeme, String.ofList_toList]
    cases Token.scanFrom (line + cs.count '\n') rest <;> rfl

/-- Pieces are cut off one after the other, in front of any rest. -/
theorem Cut.scanFrom_append {line : Nat} {ps : List Piece} {rest : List Char}
    (h : Cut rest line ps) :
    Token.scanFrom line (charsAll ps ++ rest) =
      (Token.scanFrom (line + (charsAll ps).count '\n') rest).map (tokens ps ++ ·) := by
  induction ps generalizing line with
  | nil => exact (map_nil_append _).symm
  | cons p ps ih =>
    rw [charsAll_cons, List.append_assoc, h.1.scanFrom_append, ih h.2, List.count_append,
      Nat.add_assoc, tokens_cons]
    cases Token.scanFrom _ rest with
    | error e => rfl
    | ok more => exact congrArg Except.ok (List.append_assoc _ _ _).symm

theorem cut_append {line : Nat} {ps qs : List Piece} {rest : List Char} :
    Cut rest line (ps ++ qs) ↔
      Cut (charsAll qs ++ rest) line ps ∧ Cut rest (line + (charsAll ps).count '\n') qs := by
  induction ps generalizing line with
  | nil => exact iff_of_eq (true_and _).symm
  | cons p ps ih =>
    show (p.Fits line (charsAll (ps ++ qs) ++ rest).head? ∧
      Cut rest (line + p.chars.count '\n') (ps ++ qs)) ↔ (_ ∧ _) ∧ _
    rw [ih, charsAll_append, List.append_assoc, charsAll_cons, List.count_append, Nat.add_assoc,
      and_assoc]

/-- the place of each piece -/
theorem cut_iff {line : Nat} {ps : List Piece} {rest : List Char} :
    Cut rest line ps ↔ ∀ front p back, ps = front ++ p :: back →
      p.Fits (line + (charsAll front).count '\n') (charsAll back ++ rest).head? := by
  refine ⟨?_, fun h => ?_⟩
  · rintro h front p back rfl
    exact (cut_append.mp h).2.1
  · induction ps generalizing line with
    | nil => trivial
    | cons p ps ih =>
      refine ⟨h [] p ps rfl, ih fun front q back heq => ?_⟩
      have hfits := h (p :: front) q back (congrArg (p :: ·) heq)
      rwa [charsAll_cons, List.count_append, ← Nat.add_assoc] at hfits

end Piece

namespace Token

open Piece

/-- A text that is scanned is made of pieces. -/
theorem exists_cut_of_scanFrom {line : Nat} {text : List Char} {tokens : List Token}
    (h : scanFrom line text = .ok tokens) :
    ∃ ps, Cut [] line ps ∧ charsAll ps = text ∧ Piece.tokens ps = tokens := by
  fun_induction scanFrom line text generalizing tokens with
  | case1 => exact ⟨[], trivial, rfl, Except.ok.inj h⟩
  | case2 line rest ih =>
    obtain ⟨ps, hcut, rfl, rfl⟩ := ih h
    exact ⟨.blank '\n' :: ps, ⟨show isBlank '\n' = true by decide, hcut⟩, rfl, rfl⟩
  | case3 line c rest hnewline hblank ih =>
    obtain ⟨ps, hcut, rfl, rfl⟩ := ih h
    refine ⟨.blank c :: ps, ⟨hblank, ?_⟩, rfl, rfl⟩
    rwa [chars, List.count_cons_of_ne hnewline]
  | case4 line rest hnewline hblank ih =>
    obtain ⟨ps, hcut, hchars, rfl⟩ := ih h
    have hbody : '\n' ∉ rest.takeWhile (fun d => decide (d ≠ '\n')) := fun hmem => by
      simpa using List.all_eq_true.mp List.all_takeWhile _ hmem
    refine ⟨.comment (rest.takeWhile fun d => decide (d ≠ '\n')) :: ps, ⟨⟨hbody, ?_⟩, ?_⟩, ?_, rfl⟩
    · rw [List.append_nil, hchars]
      intro c hc
      have hhead := List.head?_dropWhile_not (fun d => decide (d ≠ '\n')) rest
      rw [Option.mem_def.mp hc] at hhead
      simpa using hhead
    · rwa [chars, List.count_cons_of_ne hnewline, List.count_eq_zero.mpr hbody]
    · rw [charsAll_cons, hchars, chars, List.cons_append, List.takeWhile_append_dropWhile]
  | case5 line c rest hnewline hblank hsemi ih =>
    obtain ⟨⟨shape, n⟩, hshape, h⟩ := Except.bind_eq_ok_iff.mp h
    obtain ⟨tail, htail, h⟩ := Except.bind_eq_ok_iff.mp h
    obtain rfl := Except.pure_eq_ok_iff.mp h
    obtain ⟨ps, hcut, hchars, rfl⟩ := ih n htail
    have hlength : (rest.take n).length = n := List.length_take_of_le (length_le_of_shapeOf hshape)
    have htaken : shapeOf line c (rest.take n ++ rest.drop n) =
        .ok (shape, (rest.take n).length) := by
      rw [List.take_append_drop, hlength]
      exact hshape
    have hspells := (shapeOf_eq_ok_iff (by simpa using hblank) hsemi).mp htaken
    have hcount : (c :: rest.take n).count '\n' = (rest.take n).count '\n' :=
      List.count_cons_of_ne hnewline
    refine ⟨.lexeme ⟨shape, line + (rest.take n).count '\n', String.ofList (c :: rest.take n)⟩ ::
      ps, ⟨⟨?_, ?_⟩, ?_⟩, ?_, rfl⟩
    · rw [String.toList_ofList, hcount]
    · rw [String.toList_ofList, List.append_nil, hchars]
      exact hspells
    · rwa [chars, String.toList_ofList, hcount]
    · rw [charsAll_cons, hchars, chars, String.toList_ofList, List.cons_append,
        List.take_append_drop]

theorem scanFrom_eq_ok_iff {line : Nat} {text : List Char} {tokens : List Token} :
    scanFrom line text = .ok tokens ↔
      ∃ ps, Cut [] line ps ∧ charsAll ps = text ∧ Piece.tokens ps = tokens := by
  refine ⟨exists_cut_of_scanFrom, ?_⟩
  rintro ⟨ps, hcut, rfl, rfl⟩
  have hscan := hcut.scanFrom_append
  rw [List.append_nil, scanFrom] at hscan
  exact hscan.trans (congrArg Except.ok (List.append_nil _))

theorem exists_spells_of_mem {line : Nat} {text : List Char} {tokens : List Token}
    (h : scanFrom line text = .ok tokens) {token : Token} (htoken : token ∈ tokens) :
    ∃ next, Spells token.lexeme.toList token.shape next := by
  obtain ⟨ps, hcut, -, rfl⟩ := exists_cut_of_scanFrom h
  obtain ⟨p, hp, hpiece⟩ := List.mem_filterMap.mp htoken
  obtain ⟨front, back, rfl⟩ := List.append_of_mem hp
  cases p with
  | blank | comment => cases hpiece
  | lexeme token' =>
    obtain rfl := Option.some.inj hpiece
    exact ⟨_, (cut_iff.mp hcut front (.lexeme token') back rfl).2⟩

/-- The tokens of a text are those whose lexemes, with blanks and comments before, between and
behind them, make up the text. A comment goes up to the end of its line, a symbol, a number or a
boolean up to what ends an atom, and the line of a token is the number of line ends up to its last
character. -/
theorem scan_eq_ok_iff_pieces (text : String) (tokens : List Token) :
    scan text = .ok tokens ↔
      ∃ ps : List Piece, charsAll ps = text.toList ∧ Piece.tokens ps = tokens ∧
        (∀ front c back, ps = front ++ .blank c :: back → isBlank c = true) ∧
        (∀ front body back, ps = front ++ .comment body :: back →
          '\n' ∉ body ∧ ∀ c ∈ (charsAll back).head?, c = '\n') ∧
        ∀ front token back, ps = front ++ .lexeme token :: back →
          Spells token.lexeme.toList token.shape (charsAll back).head? ∧
            (token.shape.isBare = true → Stops (charsAll back)) ∧
              token.line = (charsAll (front ++ [.lexeme token])).count '\n' := by
  have hline : ∀ (front : List Piece) (token : Token),
      (charsAll (front ++ [.lexeme token])).count '\n' =
        0 + (charsAll front).count '\n' + token.lexeme.toList.count '\n' := by
    intro front token
    rw [charsAll_append, List.count_append, Nat.zero_add]
    exact congrArg _ (congrArg _ (List.append_nil _))
  rw [scan, scanFrom_eq_ok_iff]
  refine exists_congr fun ps => ?_
  rw [cut_iff, and_comm, and_assoc]
  refine and_congr_right fun _ => and_congr_right fun _ => ⟨fun hfits => ⟨?_, ?_, ?_⟩, ?_⟩
  · exact fun front c back heq => hfits front (.blank c) back heq
  · intro front body back heq
    have hcomment := hfits front (.comment body) back heq
    rwa [List.append_nil] at hcomment
  · intro front token back heq
    obtain ⟨hlast, hspells⟩ := hfits front (.lexeme token) back heq
    rw [List.append_nil] at hspells
    exact ⟨hspells, hspells.stops_of_isBare, hlast.trans (hline front token).symm⟩
  · rintro ⟨hblank, hcomment, hlexeme⟩ front p back heq
    rw [List.append_nil]
    cases p with
    | blank c => exact hblank front c back heq
    | comment body => exact hcomment front body back heq
    | lexeme token =>
      obtain ⟨hspells, -, hlast⟩ := hlexeme front token back heq
      exact ⟨hlast.trans (hline front token), hspells⟩

end Token

end AnnotatedScheme
