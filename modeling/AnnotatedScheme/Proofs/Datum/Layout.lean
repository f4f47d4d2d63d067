import AnnotatedScheme.Proofs.Datum.Piece

/-!
# Layout does not matter

Blanks and whole comments can be put between two pieces of a text, unless the first of them is a
quote: the tokens stay the same, and so do the data that are read, or what is wrong with them.

* `IsLayout`                  blanks, and comments with the ends of their lines;
* `Piece.IsSeam`              the places in a text that are neither inside of a piece nor behind a
                              quote; there the pieces part (`exists_parts_of_isSeam`);
* `Cut.scanFrom_insert`       what is put behind some pieces leaves their tokens as they are;
* `Datum.ofTokens_congr`      data and errors do not depend on the lines of the tokens;
* `Datum.scan_insert_layout`  the tokens and the data of a text with more layout.
-/

namespace AnnotatedScheme

inductive IsLayout : List Char → Prop
  | nil : IsLayout []
  | blank {c : Char} {cs : List Char} (h : isBlank c = true) (hcs : IsLayout cs) :
      IsLayout (c :: cs)
  | comment {body cs : List Char} (h : '\n' ∉ body) (hcs : IsLayout cs) :
      IsLayout (';' :: (body ++ '\n' :: cs))

namespace IsLayout

open Piece

variable {layout : List Char}

theorem exists_cut (h : IsLayout layout) :
    ∃ ps, charsAll ps = layout ∧ tokens ps = [] ∧ ∀ rest line, Cut rest line ps := by
  induction h with
  | nil => exact ⟨[], rfl, rfl, fun _ _ => trivial⟩
  | @blank c cs hc _ ih =>
    obtain ⟨ps, rfl, hps, hcut⟩ := ih
    exact ⟨.blank c :: ps, rfl, hps, fun rest line => ⟨hc, hcut rest _⟩⟩
  | @comment body cs hbody _ ih =>
    obtain ⟨ps, rfl, hps, hcut⟩ := ih
    refine ⟨.comment body :: .blank '\n' :: ps, rfl, hps, fun rest line => ⟨⟨hbody, ?_⟩, ?_, ?_⟩⟩
    · exact fun c hc => (Option.some.inj hc).symm
    · exact show isBlank '\n' = true by decide
    · exact hcut rest _

/-- there are no tokens in it -/
theorem scanFrom_append (h : IsLayout layout) (line : Nat) (rest : List Char) :
    Token.scanFrom line (layout ++ rest) = Token.scanFrom (line + layout.count '\n') rest := by
  obtain ⟨ps, rfl, hps, hcut⟩ := h.exists_cut
  rw [(hcut rest line).scanFrom_append, hps, map_nil_append]

theorem head?_append (h : IsLayout layout) (rest : List Char) :
    (layout ++ rest).head? = rest.head? ∨
      ∃ c, (layout ++ rest).head? = some c ∧ endsAtom c = true := by
  cases h with
  | nil => exact .inl rfl
  | blank hc => exact .inr ⟨_, rfl, by rw [endsAtom, hc, Bool.true_or]⟩
  | comment => exact .inr ⟨';', rfl, by decide⟩

/-- A comment in front of it swallows the layout up to the first line end, and what is left is
layout. -/
theorem exists_dropWhile (h : IsLayout layout) {rest : List Char}
    (hrest : ∀ c ∈ rest.head?, c = '\n') :
    ∃ left, IsLayout left ∧ left.count '\n' = layout.count '\n' ∧
      (layout ++ rest).dropWhile (fun d => decide (d ≠ '\n')) = left ++ rest := by
  induction h with
  | nil => exact ⟨[], .nil, rfl, dropWhile_comment List.not_mem_nil hrest⟩
  | @blank c cs hc hcs ih =>
    by_cases hnewline : c = '\n'
    · subst hnewline
      exact ⟨'\n' :: cs, .blank hc hcs, rfl, rfl⟩
    · obtain ⟨left, hleft, hcount, hdrop⟩ := ih
      refine ⟨left, hleft, hcount.trans (List.count_cons_of_ne hnewline).symm, ?_⟩
      rw [List.cons_append, List.dropWhile_cons_of_pos (by simpa using hnewline), hdrop]
  | @comment body cs hbody hcs =>
    have hsemi : '\n' ∉ ';' :: body := List.not_mem_cons_of_ne_of_not_mem (by decide) hbody
    refine ⟨'\n' :: cs, .blank (by decide) hcs, ?_, ?_⟩
    · rw [← List.cons_append, List.count_append, List.count_eq_zero.mpr hsemi, Nat.zero_add]
    · rw [← List.cons_append, List.append_assoc]
      exact dropWhile_comment hsemi fun c hc => (Option.some.inj hc).symm

end IsLayout

namespace Piece

variable {line : Nat} {layout rest : List Char}

def isQuote : Piece → Prop
  | .lexeme token => token.shape = .quote
  | _ => False

/-- behind one piece -/
theorem Fits.scanFrom_insert {p : Piece} (h : p.Fits line rest.head?) (hquote : ¬p.isQuote)
    (hlayout : IsLayout layout) :
    Token.scanFrom line (p.chars ++ (layout ++ rest)) =
      (Token.scanFrom (line + p.chars.count '\n' + layout.count '\n') rest).map
        (p.token?.toList ++ ·) := by
  rw [← hlayout.scanFrom_append]
  cases p with
  | blank c => exact Fits.scanFrom_append (p := .blank c) h
  | comment body =>
    -- the comment may go on in the layout
    obtain ⟨left, hleft, hcount, hdrop⟩ := hlayout.exists_dropWhile h.2
    have hbody : (';' :: body).count '\n' = 0 := by
      rw [List.count_cons_of_ne (by decide), List.count_eq_zero.mpr h.1]
    show Token.scanFrom line (';' :: (body ++ (layout ++ rest))) =
      (Token.scanFrom (line + (';' :: body).count '\n') (layout ++ rest)).map ([] ++ ·)
    rw [map_nil_append, hbody, Token.scanFrom, if_neg (by decide), if_neg (by decide), if_pos rfl,
      List.dropWhile_append_of_pos fun d hd => decide_eq_true (ne_of_mem_of_not_mem hd h.1), hdrop,
      hleft.scanFrom_append, hlayout.scanFrom_append, hcount]
    rfl
  | lexeme token =>
    refine Fits.scanFrom_append (p := .lexeme token) ⟨h.1, ?_⟩
    rcases hlayout.head?_append rest with hhead | ⟨c, hhead, hc⟩
    · exact hhead ▸ h.2
    · exact hhead ▸ h.2.of_endsAtom hquote hc

theorem Fits.exists_cons {next : Option Char} {p : Piece} (h : p.Fits line next) :
    ∃ c cs, p.chars = c :: cs := by
  cases p with
  | blank c => exact ⟨c, [], rfl⟩
  | comment body => exact ⟨';', body, rfl⟩
  | lexeme token =>
    obtain ⟨c, cs, hlexeme, -⟩ := h.2.exists_cons
    exact ⟨c, cs, hlexeme⟩

/-- pieces depend on the first character behind them alone -/
theorem Cut.of_head? {ps : List Piece} {rest' : List Char} (h : Cut rest line ps)
    (hhead : rest.head? = rest'.head?) : Cut rest' line ps := by
  induction ps generalizing line with
  | nil => trivial
  | cons p ps ih =>
    refine ⟨?_, ih h.2⟩
    have hfits := h.1
    cases hchars : charsAll ps with
    | nil => rwa [hchars, List.nil_append, hhead] at hfits
    | cons c cs => rwa [hchars] at hfits

/-- behind several pieces -/
theorem Cut.scanFrom_insert {ps : List Piece} (h : Cut rest line ps)
    (hquote : ∀ p ∈ ps.getLast?, ¬p.isQuote) (hlayout : IsLayout layout) :
    Token.scanFrom line (charsAll ps ++ (layout ++ rest)) =
      (Token.scanFrom (line + (charsAll ps).count '\n' + layout.count '\n') rest).map
        (tokens ps ++ ·) := by
  cases hend : ps.getLast? with
  | none =>
    obtain rfl := List.getLast?_eq_none_iff.mp hend
    exact (hlayout.scanFrom_append line rest).trans (map_nil_append _).symm
  | some last =>
    have hlast := hquote last hend
    obtain ⟨front, rfl⟩ := List.getLast?_eq_some_iff.mp hend
    obtain ⟨hfront, hfits, -⟩ := cut_append.mp h
    replace hfits : last.Fits (line + (charsAll front).count '\n') rest.head? := hfits
    obtain ⟨c, cs, hchars⟩ := hfits.exists_cons
    have hall : charsAll [last] = last.chars := List.append_nil _
    have htokens : tokens [last] = last.token?.toList := by
      rw [tokens_cons]
      exact List.append_nil _
    -- the pieces in front of the last one see only that
    have hfront : Cut (last.chars ++ (layout ++ rest)) line front := by
      refine hfront.of_head? ?_
      rw [hall, hchars]
      rfl
    rw [charsAll_append, hall, List.append_assoc, hfront.scanFrom_append,
      hfits.scanFrom_insert hlast hlayout, List.count_append, ← Nat.add_assoc, tokens_append,
      htokens]
    cases Token.scanFrom _ rest with
    | error e => rfl
    | ok more => exact congrArg Except.ok (List.append_assoc _ _ _).symm

/-! ## seams -/

/-- strictly inside of a piece, of which so many pieces stand in front -/
def IsInside (front : List Piece) (p : Piece) (position : Nat) : Prop :=
  (charsAll front).length < position ∧ position < (charsAll (front ++ [p])).length

/-- a position in a text, with its pieces: not inside of one, and not at the end of a quote -/
def IsSeam (ps : List Piece) (position : Nat) : Prop :=
  ∀ front p back, ps = front ++ p :: back →
    ¬IsInside front p position ∧ (p.isQuote → position ≠ (charsAll (front ++ [p])).length)

theorem length_charsAll_concat (front : List Piece) (p : Piece) :
    (charsAll (front ++ [p])).length = (charsAll front).length + p.chars.length := by
  rw [charsAll_append, List.length_append]
  exact congrArg _ (congrArg List.length (List.append_nil _))

/-- A text that is parted, but not inside of a piece, parts between two pieces. -/
theorem exists_parts {ps : List Piece} {front back : List Char}
    (htext : charsAll ps = front ++ back)
    (h : ∀ qs p rs, ps = qs ++ p :: rs → ¬IsInside qs p front.length) :
    ∃ qs rs, ps = qs ++ rs ∧ charsAll qs = front ∧ charsAll rs = back := by
  induction ps generalizing front with
  | nil =>
    obtain ⟨rfl, rfl⟩ := List.append_eq_nil_iff.mp htext.symm
    exact ⟨[], [], rfl, rfl, rfl⟩
  | cons p ps ih =>
    by_cases hfront : front = []
    · subst hfront
      exact ⟨[], p :: ps, rfl, rfl, htext⟩
    have hpos := List.length_pos_iff.mpr hfront
    -- the first piece ends in front of the parting
    have hfirst := h [] p ps rfl
    rw [IsInside, length_charsAll_concat] at hfirst
    have hlength : p.chars.length ≤ front.length := by
      simp only [charsAll, List.flatMap_nil, List.length_nil, Nat.zero_add] at hfirst
      omega
    obtain ⟨left, rfl, hleft⟩ : ∃ left, front = p.chars ++ left ∧ charsAll ps = left ++ back := by
      rcases List.append_eq_append_iff.mp htext with ⟨left, hl, hr⟩ | ⟨left, hl, hr⟩
      · exact ⟨left, hl, hr⟩
      · rw [hl, List.length_append] at hlength
        obtain rfl : left = [] := List.length_eq_zero_iff.mp (by omega)
        exact ⟨[], by rw [hl, List.append_nil, List.append_nil], hr.symm⟩
    obtain ⟨qs, rs, rfl, rfl, rfl⟩ := ih hleft fun a q b heq => by
      have hinside := h (p :: a) q b (congrArg (p :: ·) heq)
      rw [IsInside, length_charsAll_concat, charsAll_cons, List.length_append,
        List.length_append] at hinside
      rw [IsInside, length_charsAll_concat]
      omega
    exact ⟨p :: qs, rs, rfl, rfl, rfl⟩

/-- At a seam a text parts between two pieces, and not behind a quote. -/
theorem exists_parts_of_isSeam {ps : List Piece} {front back : List Char}
    (htext : charsAll ps = front ++ back) (h : IsSeam ps front.length) :
    ∃ qs rs, ps = qs ++ rs ∧ charsAll qs = front ∧ charsAll rs = back ∧
      ∀ p ∈ qs.getLast?, ¬p.isQuote := by
  obtain ⟨qs, rs, rfl, rfl, rfl⟩ := exists_parts htext fun qs p rs heq => (h qs p rs heq).1
  refine ⟨qs, rs, rfl, rfl, rfl, fun p hp hquote => ?_⟩
  obtain ⟨init, rfl⟩ := List.getLast?_eq_some_iff.mp hp
  exact (h init p rs (List.append_assoc _ _ _)).2 hquote rfl

theorem Cut.eq_nil_of_charsAll {ps : List Piece} (h : Cut rest line ps)
    (hchars : charsAll ps = []) : ps = [] := by
  cases ps with
  | nil => rfl
  | cons p ps =>
    obtain ⟨c, cs, hp⟩ := Fits.exists_cons h.1
    rw [charsAll_cons, hp] at hchars
    cases hchars

/-- pieces that do not end with a quote end at a seam -/
theorem isSeam_append {qs rs : List Piece} (h : Cut rest line (qs ++ rs))
    (hquote : ∀ p ∈ qs.getLast?, ¬p.isQuote) : IsSeam (qs ++ rs) (charsAll qs).length := by
  intro front p back heq
  rw [IsInside, length_charsAll_concat]
  have hone : 0 < p.chars.length := by
    obtain ⟨c, cs, hp⟩ := Fits.exists_cons (cut_iff.mp h front p back heq)
    rw [hp]
    exact Nat.succ_pos _
  have hbehind : ∀ left, front = qs ++ left → (charsAll qs).length ≤ (charsAll front).length := by
    rintro left rfl
    rw [charsAll_append, List.length_append]
    exact Nat.le_add_right _ _
  rcases List.append_eq_append_iff.mp heq with ⟨left, hfront, -⟩ | ⟨left, hqs, hback⟩
  · have hle := hbehind left hfront
    exact ⟨by omega, fun _ => by omega⟩
  · cases left with
    | nil =>
      have hle := hbehind [] (by rw [hqs, List.append_nil, List.append_nil])
      exact ⟨by omega, fun _ => by omega⟩
    | cons q left =>
      obtain ⟨rfl, rfl⟩ := List.cons.inj hback
      have hparts : qs = front ++ [p] ++ left := by rw [hqs, List.append_assoc]; rfl
      have hlength : (charsAll qs).length =
          (charsAll front).length + p.chars.length + (charsAll left).length := by
        rw [hparts, charsAll_append, List.length_append, length_charsAll_concat]
      refine ⟨by omega, fun hp heq => ?_⟩
      -- nothing is left behind the quote, so it is the last of the pieces
      have hcut := (cut_append.mp (hparts ▸ (cut_append.mp h).1)).2
      have hleft := hcut.eq_nil_of_charsAll (List.length_eq_zero_iff.mp (by omega))
      rw [hleft, List.append_nil] at hparts
      exact hquote p (by rw [hparts]; exact List.getLast?_concat) hp

end Piece

/-! ## tokens and data -/

namespace Datum

theorem mapError_reader {ε ε' α : Type} (f : ε → ε') (x : Except ε α) :
    (x.mapError Unread.reader).mapError (Unread.map f) = (x.mapError f).mapError .reader := by
  cases x <;> rfl

theorem ofTokens_congr {tokens tokens' : List Token}
    (h : tokens'.map (Token.reline fun _ => 0) = tokens.map (Token.reline fun _ => 0)) :
    (ofTokens tokens').mapError ReadError.cause = (ofTokens tokens).mapError ReadError.cause := by
  have hcause : ∀ tokens, (ofTokens tokens).mapError ReadError.cause =
      (ofTokens (tokens.map (Token.reline fun _ => 0))).mapError ReadError.cause := by
    intro tokens
    have hreline : ofTokens (tokens.map (Token.reline fun _ => 0)) =
        (ofTokens tokens).mapError (ReadError.reline fun _ => 0) :=
      ofTokensFrom_reline (fun _ => 0) [] [] tokens
    rw [hreline]
    cases ofTokens tokens <;> rfl
  rw [hcause tokens', h, ← hcause]

open Piece

/-- Layout does not matter between tokens. With layout put in at a seam, a text that is scanned
has tokens of the same shapes and lexemes, and is read as the same data or wrong in the same way. -/
theorem scan_insert_layout {text : String} {tokens : List Token}
    (h : Token.scan text = .ok tokens) :
    (∃ ps, Cut [] 0 ps ∧ charsAll ps = text.toList) ∧
      ∀ ps, Cut [] 0 ps → charsAll ps = text.toList →
        ∀ front back, text.toList = front ++ back → IsSeam ps front.length →
          ∀ layout, IsLayout layout → ∃ tokens',
            Token.scan (String.ofList (front ++ layout ++ back)) = .ok tokens' ∧
              tokens'.map (fun token => (token.shape, token.lexeme)) =
                tokens.map (fun token => (token.shape, token.lexeme)) ∧
              (readAll (String.ofList (front ++ layout ++ back))).mapError
                  (Unread.map ReadError.cause) =
                (readAll text).mapError (Unread.map ReadError.cause) := by
  obtain ⟨ps, hcut, hchars, -⟩ := Token.exists_cut_of_scanFrom h
  refine ⟨⟨ps, hcut, hchars⟩, ?_⟩
  intro ps hcut hchars front back htext hseam layout hlayout
  obtain ⟨qs, rs, rfl, rfl, rfl, hquote⟩ := exists_parts_of_isSeam (hchars.trans htext) hseam
  obtain ⟨hfront, hback⟩ := cut_append.mp hcut
  rw [List.append_nil] at hfront
  have hbehind : Token.scanFrom (0 + (charsAll qs).count '\n') (charsAll rs) =
      .ok (Piece.tokens rs) :=
    Token.scanFrom_eq_ok_iff.mpr ⟨rs, hback, rfl, rfl⟩
  have htokens : tokens = Piece.tokens qs ++ Piece.tokens rs := by
    rw [← tokens_append]
    refine Except.ok.inj (h.symm.trans ?_)
    exact Token.scanFrom_eq_ok_iff.mpr ⟨qs ++ rs, hcut, hchars, rfl⟩
  -- the tokens behind the layout move down with it
  have hscan : Token.scan (String.ofList (charsAll qs ++ layout ++ charsAll rs)) =
      .ok (Piece.tokens qs ++ (Piece.tokens rs).map (Token.down (layout.count '\n'))) := by
    rw [Token.scan, String.toList_ofList, List.append_assoc, hfront.scanFrom_insert hquote hlayout,
      Token.scanFrom_down, hbehind]
    rfl
  have hsame : ∀ {α : Type} (f : Token → α), (∀ token n, f (Token.down n token) = f token) →
      (Piece.tokens qs ++ (Piece.tokens rs).map (Token.down (layout.count '\n'))).map f =
        tokens.map f := by
    intro α f hf
    rw [htokens, List.map_append, List.map_append, List.map_map]
    exact congrArg _ (List.map_congr_left fun token _ => hf token _)
  refine ⟨_, hscan, hsame _ fun _ _ => rfl, ?_⟩
  have hread := ofTokens_congr (hsame (Token.reline fun _ => 0) fun _ _ => rfl)
  rw [readAll, hscan, readAll, h]
  show ((ofTokens _).mapError _).mapError _ = ((ofTokens tokens).mapError _).mapError _
  rw [mapError_reader, mapError_reader, hread]

/-- a blank and another comment behind the comment of a line, in front of a quote -/
theorem scan_insert_layout_comment :
    ∃ tokens ps, Token.scan "a;b\n'c" = .ok tokens ∧ Cut [] 0 ps ∧
      charsAll ps = "a;b\n'c".toList ∧ IsSeam ps 3 ∧ IsLayout " ;d\n".toList ∧
      ∃ tokens', Token.scan "a;b ;d\n\n'c" = .ok tokens' ∧
        tokens'.map (fun token => (token.shape, token.lexeme)) =
          tokens.map (fun token => (token.shape, token.lexeme)) ∧
        (readAll "a;b ;d\n\n'c").mapError (Unread.map ReadError.cause) =
          (readAll "a;b\n'c").mapError (Unread.map ReadError.cause) := by
  have hscan : Token.scan "a;b\n'c" = .ok [⟨.atom (.symbol "a"), 0, "a"⟩, ⟨.quote, 1, "'"⟩,
      ⟨.atom (.symbol "c"), 1, "c"⟩] := Except.toOption_eq_some_iff.mp (by decide +kernel)
  have hsymbol : ∀ {c : Char} {next : Option Char}, beginsAtom c = true → [c] ≠ ['.'] →
      Atom.ofLexeme [c] = .ok (.symbol (String.ofList [c])) → next.all endsAtom = true →
        Token.Spells [c] (.atom (.symbol (String.ofList [c]))) next := by
    intro c next hbegins hdot hreads hends
    exact .atom hbegins hdot (List.forall_mem_nil _) hreads hends
  have hcut : Cut [] 0 ([.lexeme ⟨.atom (.symbol "a"), 0, "a"⟩, .comment ['b']] ++
      [.blank '\n', .lexeme ⟨.quote, 1, "'"⟩, .lexeme ⟨.atom (.symbol "c"), 1, "c"⟩]) := by
    have hcomment : '\n' ∉ ['b'] ∧ ∀ c ∈ some '\n', c = '\n' :=
      ⟨by decide, fun c hc => (Option.some.inj hc).symm⟩
    exact ⟨⟨rfl, hsymbol (by decide) (by decide) rfl rfl⟩, hcomment,
      show isBlank '\n' = true by decide, ⟨rfl, .quote (by decide)⟩,
      ⟨rfl, hsymbol (by decide) (by decide) rfl rfl⟩, trivial⟩
  have hseam := isSeam_append hcut (by simp [isQuote])
  have hlayout : IsLayout " ;d\n".toList :=
    .blank (by decide) (.comment (show '\n' ∉ ['d'] by decide) .nil)
  have hsame := (scan_insert_layout hscan).2 _ hcut rfl "a;b".toList "\n'c".toList rfl hseam
    " ;d\n".toList hlayout
  have htext : String.ofList ("a;b".toList ++ " ;d\n".toList ++ "\n'c".toList) =
      "a;b ;d\n\n'c" := by decide
  rw [htext] at hsame
  exact ⟨_, _, hscan, hcut, rfl, hseam, hlayout, hsame⟩

end Datum

end AnnotatedScheme
