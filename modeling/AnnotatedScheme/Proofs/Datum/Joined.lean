import AnnotatedScheme.Proofs.Datum.Bounds
import AnnotatedScheme.Proofs.Datum.Digits

/-!
# One text below another

A text that is read is cut into the same tokens when a line end and another text follow it, and the
other text is read as if it stood alone, so many lines further down:

* `down`, `reline`             tokens, errors and open places, a number of lines further down, or in
                               other lines;
* `Token.scanFrom_down`        the tokens of a text move with the line of its first character;
* `Token.scanFrom_newline`     at the line end the tokens begin anew;
* `Datum.step`                 what one token does to the open places and the finished data;
* `Datum.ofTokensFrom_reline`  the reader makes the same data of tokens in other lines;
* `Datum.ofTokens_append`      where all data are finished, the reader begins anew;
* `Datum.readAll_newline`      the data of both texts, or the error in the line where it now is; a
                               numeral that is refused is refused in any line.
-/

namespace AnnotatedScheme

def ReadError.down (n : Nat) (e : ReadError) : ReadError := ⟨e.cause, e.line + n⟩

def ReadError.reline (f : Nat → Nat) (e : ReadError) : ReadError := ⟨e.cause, f e.line⟩

/-! ## strings -/

namespace Quoted

/-! A string that is closed does not reach into what follows. -/

mutual
theorem decode_append {more : List Char} :
    ∀ {text : List Char} {body : Body}, decode text = .ok body → decode (text ++ more) = .ok body
  | [], _, h => by cases h
  | c :: rest, body, h => by
    rw [decode] at h
    rw [List.cons_append, decode]
    split at h
    · rename_i hquote
      rw [if_pos hquote]
      exact h
    rename_i hquote
    rw [if_neg hquote]
    split at h
    · rename_i hbackslash
      obtain ⟨shorter, hshorter, rfl⟩ := Reading.later_eq_ok h
      rw [if_pos hbackslash, decodeEscape_append hshorter]
      rfl
    · rename_i hbackslash
      obtain ⟨shorter, hshorter, rfl⟩ := Reading.push_eq_ok h
      rw [if_neg hbackslash, decode_append hshorter]
      rfl

theorem decodeEscape_append {more : List Char} :
    ∀ {text : List Char} {body : Body},
      decodeEscape text = .ok body → decodeEscape (text ++ more) = .ok body
  | [], _, h => by cases h
  | c :: rest, body, h => by
    rw [decodeEscape] at h
    rw [List.cons_append, decodeEscape]
    split at h
    · rename_i d hescape
      obtain ⟨shorter, hshorter, rfl⟩ := Reading.push_eq_ok h
      rw [decode_append hshorter]
      rfl
    · cases h
end

end Quoted

/-! ## tokens -/

namespace Token

def down (n : Nat) (token : Token) : Token := ⟨token.shape, token.line + n, token.lexeme⟩

def reline (f : Nat → Nat) (token : Token) : Token := ⟨token.shape, f token.line, token.lexeme⟩

theorem scanString_down (line n : Nat) (rest : List Char) :
    scanString (line + n) rest = (scanString line rest).mapError (ReadError.down n) := by
  unfold scanString
  split
  · rfl
  · show Except.error (ReadError.mk _ _) = .error (ReadError.mk _ _)
    rw [Nat.add_right_comm]
  · show Except.error (ReadError.mk _ _) = .error (ReadError.mk _ _)
    rw [Nat.add_right_comm]

theorem shapeOf_down (line n : Nat) (c : Char) (rest : List Char) :
    shapeOf (line + n) c rest =
      (shapeOf line c rest).mapError (Unread.map (ReadError.down n)) := by
  unfold shapeOf
  split
  · rfl
  split
  · rfl
  split
  · split <;> rfl
  split
  · rw [scanString_down]
    cases scanString line rest <;> rfl
  split
  · rfl
  · cases Atom.scan c rest with
    | ok => rfl
    | error reason => cases reason <;> rfl

theorem scanFrom_down (line n : Nat) (text : List Char) :
    scanFrom (line + n) text =
      ((scanFrom line text).map (List.map (down n))).mapError
        (Unread.map (ReadError.down n)) := by
  fun_induction scanFrom line text with
  | case1 =>
    rw [scanFrom]
    rfl
  | case2 line rest ih =>
    rw [scanFrom, if_pos rfl, Nat.add_right_comm, ih]
  | case3 line c rest hnewline hblank ih =>
    rw [scanFrom, if_neg hnewline, if_pos hblank, ih]
  | case4 line rest hnewline hblank ih =>
    rw [scanFrom, if_neg hnewline, if_neg hblank, if_pos rfl, ih]
  | case5 line c rest hnewline hblank hsemi ih =>
    rw [scanFrom, if_neg hnewline, if_neg hblank, if_neg hsemi, shapeOf_down]
    cases hshape : shapeOf line c rest with
    | error e => rfl
    | ok p =>
      obtain ⟨shape, m⟩ := p
      have hbehind := ih m
      have hlast : line + n + (rest.take m).count '\n' = line + (rest.take m).count '\n' + n :=
        Nat.add_right_comm _ _ _
      show (scanFrom (line + n + (rest.take m).count '\n') (rest.drop m) >>= fun tokens =>
        Except.ok (⟨shape, line + n + (rest.take m).count '\n', String.ofList (c :: rest.take m)⟩
          :: tokens)) = _
      rw [hlast, hbehind]
      show _ = (Except.map (List.map (down n)) (scanFrom (line + (rest.take m).count '\n')
        (rest.drop m) >>= fun tokens => Except.ok
          (⟨shape, line + (rest.take m).count '\n', String.ofList (c :: rest.take m)⟩
            :: tokens))).mapError (Unread.map (ReadError.down n))
      cases scanFrom (line + (rest.take m).count '\n') (rest.drop m) <;> rfl

/-! ### what follows a text -/

section

variable {rest : List Char} (more : List Char)

theorem endsAtom_newline : endsAtom '\n' = true := by decide

/-- a line end counts as much as the end of the text -/
theorem all_head?_newline :
    (rest ++ '\n' :: more).head?.all endsAtom = rest.head?.all endsAtom := by
  cases rest with
  | nil => exact endsAtom_newline
  | cons d rest => rfl

theorem takeWhile_newline : (rest ++ '\n' :: more).takeWhile (fun d => !endsAtom d) =
    rest.takeWhile fun d => !endsAtom d := by
  induction rest with
  | nil => rw [List.nil_append, List.takeWhile_cons_of_neg (by simp [endsAtom_newline]),
      List.takeWhile_nil]
  | cons d rest ih => rw [List.cons_append, List.takeWhile_cons, List.takeWhile_cons, ih]

theorem dropWhile_newline : (rest ++ '\n' :: more).dropWhile (fun d => decide (d ≠ '\n')) =
    rest.dropWhile (fun d => decide (d ≠ '\n')) ++ '\n' :: more := by
  induction rest with
  | nil => rfl
  | cons d rest ih =>
    rw [List.cons_append, List.dropWhile_cons, List.dropWhile_cons]
    split
    · exact ih
    · rfl

theorem count_dropWhile_newline (text : List Char) :
    (text.dropWhile fun d => decide (d ≠ '\n')).count '\n' = text.count '\n' := by
  induction text with
  | nil => rfl
  | cons d text ih =>
    rw [List.dropWhile_cons]
    split
    · rename_i hd
      rw [ih, List.count_cons_of_ne (by simpa using hd)]
    · rfl

theorem shapeOf_newline {line : Nat} {c : Char} {shape : Shape} {n : Nat}
    (h : shapeOf line c rest = .ok (shape, n)) :
    shapeOf line c (rest ++ '\n' :: more) = .ok (shape, n) := by
  unfold shapeOf at h ⊢
  rw [all_head?_newline, Atom.scan, takeWhile_newline]
  split at h
  · rename_i hleft
    rw [if_pos hleft]
    exact h
  rename_i hleft
  rw [if_neg hleft]
  split at h
  · rename_i hright
    rw [if_pos hright]
    exact h
  rename_i hright
  rw [if_neg hright]
  split at h
  · rename_i hquote
    rw [if_pos hquote]
    -- what stands behind the quote is no line end
    cases rest with
    | nil => cases h
    | cons d rest => exact h
  rename_i hquote
  rw [if_neg hquote]
  split at h
  · rename_i hstring
    rw [if_pos hstring]
    unfold scanString at h ⊢
    cases hdecode : Quoted.decode rest with
    | error fault => cases fault <;> (rw [hdecode] at h; cases h)
    | ok body =>
      rw [hdecode] at h
      rw [Quoted.decode_append hdecode]
      exact h
  rename_i hstring
  rw [if_neg hstring]
  exact h

end

/-- The tokens of a text stay, and those of the text below it begin in a line of their own. -/
theorem scanFrom_newline {line : Nat} {text : List Char} {tokens : List Token}
    (h : scanFrom line text = .ok tokens) (more : List Char) :
    scanFrom line (text ++ '\n' :: more) =
      (scanFrom (line + (text.count '\n' + 1)) more).map (tokens ++ ·) := by
  fun_induction scanFrom line text generalizing tokens with
  | case1 line =>
    obtain rfl := Except.ok.inj h
    rw [List.nil_append, scanFrom, if_pos rfl]
    show _ = Except.map id (scanFrom (line + 1) more)
    cases scanFrom (line + 1) more <;> rfl
  | case2 line rest ih =>
    rw [List.cons_append, scanFrom, if_pos rfl, ih h, List.count_cons_self]
    congr 2
    omega
  | case3 line c rest hnewline hblank ih =>
    rw [List.cons_append, scanFrom, if_neg hnewline, if_pos hblank, ih h,
      List.count_cons_of_ne hnewline]
  | case4 line rest hnewline hblank ih =>
    have hcount := count_dropWhile_newline rest
    rw [List.cons_append, scanFrom, if_neg hnewline, if_neg hblank, if_pos rfl, dropWhile_newline,
      ih h, hcount, List.count_cons_of_ne hnewline]
  | case5 line c rest hnewline hblank hsemi ih =>
    obtain ⟨⟨shape, n⟩, hshape, h⟩ := Except.bind_eq_ok_iff.mp h
    obtain ⟨tail, htail, h⟩ := Except.bind_eq_ok_iff.mp h
    obtain rfl := Except.pure_eq_ok_iff.mp h
    have hlength := length_le_of_shapeOf hshape
    have hcount : (rest.take n).count '\n' + (rest.drop n).count '\n' = rest.count '\n' := by
      rw [← List.count_append, List.take_append_drop]
    have hbehind := ih n htail
    rw [List.cons_append, scanFrom, if_neg hnewline, if_neg hblank, if_neg hsemi,
      shapeOf_newline more hshape, List.count_cons_of_ne hnewline]
    show (scanFrom (line + ((rest ++ '\n' :: more).take n).count '\n')
      ((rest ++ '\n' :: more).drop n) >>= fun tokens => Except.ok (⟨shape,
        line + ((rest ++ '\n' :: more).take n).count '\n',
        String.ofList (c :: (rest ++ '\n' :: more).take n)⟩ :: tokens)) = _
    have hlast : line + (rest.take n).count '\n' + ((rest.drop n).count '\n' + 1) =
        line + (rest.count '\n' + 1) := by omega
    rw [List.take_append_of_le_length hlength, List.drop_append_of_le_length hlength, hbehind,
      hlast]
    cases scanFrom (line + (rest.count '\n' + 1)) more <;> rfl

end Token

/-! ## data -/

namespace Datum

/-- the open places and the finished data behind one more token -/
def step (token : Token) (pending : List Pending) (done : List Datum) :
    Except ReadError (List Pending × List Datum) :=
  match token.shape with
  | .leftParen => .ok (.list token.line [] :: pending, done)
  | .rightParen =>
    match pending with
    | [] => .error ⟨.unmatchedParenthesis, token.line⟩
    | .quote line :: _ => .error ⟨.quoteWithoutDatum, line⟩
    | .list line items :: outer => (close line items.reverse).map fun d => place d outer done
  | .quote => .ok (.quote token.line :: pending, done)
  | .dot => .ok (place dot pending done)
  | .atom value => .ok (place (.atom value) pending done)

theorem ofTokensFrom_cons (pending : List Pending) (done : List Datum) (token : Token)
    (tokens : List Token) :
    ofTokensFrom pending done (token :: tokens) =
      step token pending done >>= fun after => ofTokensFrom after.1 after.2 tokens := by
  rw [ofTokensFrom.eq_def]
  unfold step
  dsimp only
  cases token.shape with
  | leftParen => rfl
  | quote => rfl
  | dot => rfl
  | atom value => rfl
  | rightParen =>
    cases pending with
    | nil => rfl
    | cons p outer =>
      cases p with
      | quote line => rfl
      | list line items =>
        dsimp only
        cases close line items.reverse <;> rfl

/-! ### moved tokens -/

def Pending.down (n : Nat) : Pending → Pending
  | .list line items => .list (line + n) items
  | .quote line => .quote (line + n)

def Pending.reline (f : Nat → Nat) : Pending → Pending
  | .list line items => .list (f line) items
  | .quote line => .quote (f line)

theorem Pending.down_eq_reline (n : Nat) : Pending.down n = Pending.reline (· + n) := by
  funext p
  cases p <;> rfl

theorem place_reline (f : Nat → Nat) (d : Datum) (pending : List Pending) (done : List Datum) :
    place d (pending.map (Pending.reline f)) done =
      ((place d pending done).1.map (Pending.reline f), (place d pending done).2) := by
  induction pending generalizing d with
  | nil => rfl
  | cons p rest ih =>
    cases p with
    | list line items => rfl
    | quote line => exact ih (quote d)

theorem step_reline (f : Nat → Nat) (token : Token) (pending : List Pending) (done : List Datum) :
    step (token.reline f) (pending.map (Pending.reline f)) done =
      ((step token pending done).map fun after =>
        (after.1.map (Pending.reline f), after.2)).mapError (ReadError.reline f) := by
  obtain ⟨shape, line, lexeme⟩ := token
  cases shape with
  | leftParen => rfl
  | quote => rfl
  | dot => exact congrArg Except.ok (place_reline f dot pending done)
  | atom value => exact congrArg Except.ok (place_reline f (.atom value) pending done)
  | rightParen =>
    cases pending with
    | nil => rfl
    | cons p outer =>
      cases p with
      | quote line => rfl
      | list opening items =>
        show (close (f opening) items.reverse).map _ =
          (((close opening items.reverse).map _).map _).mapError _
        unfold close
        cases checkDots items.reverse with
        | error cause => rfl
        | ok _ => exact congrArg Except.ok (place_reline f (.list items.reverse) outer done)

/-- The lines of tokens matter to the lines of errors only. -/
theorem ofTokensFrom_reline (f : Nat → Nat) (pending : List Pending) (done : List Datum)
    (tokens : List Token) :
    ofTokensFrom (pending.map (Pending.reline f)) done (tokens.map (Token.reline f)) =
      (ofTokensFrom pending done tokens).mapError (ReadError.reline f) := by
  induction tokens generalizing pending done with
  | nil =>
    cases pending with
    | nil => rfl
    | cons p rest => cases p <;> rfl
  | cons token tokens ih =>
    rw [List.map_cons, ofTokensFrom_cons, ofTokensFrom_cons, step_reline]
    cases step token pending done with
    | error e => rfl
    | ok after => exact ih after.1 after.2

theorem ofTokensFrom_down (n : Nat) (pending : List Pending) (done : List Datum)
    (tokens : List Token) :
    ofTokensFrom (pending.map (Pending.down n)) done (tokens.map (Token.down n)) =
      (ofTokensFrom pending done tokens).mapError (ReadError.down n) := by
  rw [Pending.down_eq_reline]
  exact ofTokensFrom_reline (· + n) pending done tokens

/-! ### finished data -/

theorem place_behind (d : Datum) (pending : List Pending) (done front : List Datum) :
    place d pending (done ++ front) =
      ((place d pending done).1, (place d pending done).2 ++ front) := by
  induction pending generalizing d with
  | nil => rfl
  | cons p rest ih =>
    cases p with
    | list line items => rfl
    | quote line => exact ih (quote d)

theorem step_behind (token : Token) (pending : List Pending) (done front : List Datum) :
    step token pending (done ++ front) =
      (step token pending done).map fun after => (after.1, after.2 ++ front) := by
  obtain ⟨shape, line, lexeme⟩ := token
  cases shape with
  | leftParen => rfl
  | quote => rfl
  | dot => exact congrArg Except.ok (place_behind dot pending done front)
  | atom value => exact congrArg Except.ok (place_behind (.atom value) pending done front)
  | rightParen =>
    cases pending with
    | nil => rfl
    | cons p outer =>
      cases p with
      | quote line => rfl
      | list opening items =>
        show (close opening items.reverse).map _ = ((close opening items.reverse).map _).map _
        cases close opening items.reverse with
        | error e => rfl
        | ok d => exact congrArg Except.ok (place_behind d outer done front)

/-- data that were finished before the tokens come first -/
theorem ofTokensFrom_behind (pending : List Pending) (done front : List Datum)
    (tokens : List Token) :
    ofTokensFrom pending (done ++ front) tokens =
      (ofTokensFrom pending done tokens).map (front.reverse ++ ·) := by
  induction tokens generalizing pending done with
  | nil =>
    cases pending with
    | nil => exact congrArg Except.ok List.reverse_append
    | cons p rest => cases p <;> rfl
  | cons token tokens ih =>
    rw [ofTokensFrom_cons, ofTokensFrom_cons, step_behind]
    cases step token pending done with
    | error e => rfl
    | ok after => exact ih after.1 after.2

/-- nothing is open behind the last token of data that are read -/
theorem ofTokensFrom_append {pending : List Pending} {done : List Datum} {tokens : List Token}
    {data : List Datum} (h : ofTokensFrom pending done tokens = .ok data) (more : List Token) :
    ofTokensFrom pending done (tokens ++ more) = ofTokensFrom [] data.reverse more := by
  induction tokens generalizing pending done with
  | nil =>
    cases pending with
    | nil =>
      obtain rfl := Except.ok.inj h
      rw [List.reverse_reverse, List.nil_append]
    | cons p rest => cases p <;> cases h
  | cons token tokens ih =>
    rw [ofTokensFrom_cons] at h
    obtain ⟨after, hstep, h⟩ := Except.bind_eq_ok_iff.mp h
    rw [List.cons_append, ofTokensFrom_cons, hstep]
    exact ih h

theorem ofTokens_append {tokens : List Token} {data : List Datum} (h : ofTokens tokens = .ok data)
    (more : List Token) : ofTokens (tokens ++ more) = (ofTokens more).map (data ++ ·) := by
  show ofTokensFrom [] [] (tokens ++ more) = _
  rw [ofTokensFrom_append h, ← List.nil_append data.reverse, ofTokensFrom_behind,
    List.reverse_reverse]
  rfl

/-! ## the text below -/

theorem toList_below (text more : String) :
    (text ++ "\n" ++ more).toList = text.toList ++ '\n' :: more.toList := by
  rw [String.toList_append, String.toList_append, List.append_assoc]
  rfl

/-- The data of two texts that stand one below the other are those of the upper text and then those
of the lower; what is wrong with the lower one is wrong in the line where it now stands, and a
numeral that is refused there is refused here. -/
theorem readAll_newline {text : String} {data : List Datum} (h : readAll text = .ok data)
    (more : String) :
    readAll (text ++ "\n" ++ more) =
      match readAll more with
      | .ok rest => .ok (data ++ rest)
      | .error (.reader e) => .error (.reader ⟨e.cause, e.line + (text.toList.count '\n' + 1)⟩)
      | .error (.overlong numeral) => .error (.overlong numeral) := by
  obtain ⟨tokens, htokens, hdata⟩ := readAll_eq_ok_iff.mp h
  unfold readAll Token.scan
  rw [toList_below, Token.scanFrom_newline htokens, Token.scanFrom_down]
  generalize text.toList.count '\n' + 1 = n
  cases Token.scanFrom 0 more.toList with
  | error reason => cases reason <;> rfl
  | ok below =>
    show (ofTokens (tokens ++ below.map (Token.down n))).mapError Unread.reader = _
    have hdown : ofTokens (below.map (Token.down n)) =
        (ofTokens below).mapError (ReadError.down n) := ofTokensFrom_down n [] [] below
    rw [ofTokens_append hdata, hdown]
    show _ = match (ofTokens below).mapError Unread.reader with
      | .ok rest => _
      | .error (.reader e) => _
      | .error (.overlong numeral) => _
    cases ofTokens below <;> rfl

/-- the upper text goes over two lines, in a string, and ends in a dot and a comment -/
theorem readAll_newline_unmatched :
    readAll "'(a . \"b\nc\") . ;d" =
        .ok [quote (.list [symbol "a", dot, .atom (.string "b\nc")]), dot] ∧
      readAll "x\n)" = .error (.reader ⟨.unmatchedParenthesis, 1⟩) ∧
      readAll ("'(a . \"b\nc\") . ;d" ++ "\n" ++ "x\n)") =
        .error (.reader ⟨.unmatchedParenthesis, 3⟩) := by
  have hupper : readAll "'(a . \"b\nc\") . ;d" =
      .ok [quote (.list [symbol "a", dot, .atom (.string "b\nc")]), dot] := by
    have hscan : Token.scan "'(a . \"b\nc\") . ;d" = .ok [⟨.quote, 0, "'"⟩,
        ⟨.leftParen, 0, "("⟩, ⟨.atom (.symbol "a"), 0, "a"⟩, ⟨.dot, 0, "."⟩,
        ⟨.atom (.string "b\nc"), 1, "\"b\nc\""⟩, ⟨.rightParen, 1, ")"⟩, ⟨.dot, 1, "."⟩] :=
      Except.toOption_eq_some_iff.mp (by decide +kernel)
    rw [readAll, hscan]
    rfl
  have hlower : readAll "x\n)" = .error (.reader ⟨.unmatchedParenthesis, 1⟩) := by
    have hscan : Token.scan "x\n)" =
        .ok [⟨.atom (.symbol "x"), 0, "x"⟩, ⟨.rightParen, 1, ")"⟩] :=
      Except.toOption_eq_some_iff.mp (by decide +kernel)
    rw [readAll, hscan]
    rfl
  have hcount : "'(a . \"b\nc\") . ;d".toList.count '\n' = 1 := by decide +kernel
  refine ⟨hupper, hlower, ?_⟩
  rw [readAll_newline hupper, hlower, hcount]

/-- what the reader refuses below another text need not be an error of it -/
theorem readAll_newline_zeros :
    readAll "1" = .ok [.atom (.number (.int 1))] ∧
      readAll (zeros (digitLimit + 1)) = .error (.overlong ⟨digitLimit + 1⟩) ∧
      ¬∃ e, readAll ("1" ++ "\n" ++ zeros (digitLimit + 1)) = .error (.reader e) := by
  have hscan : Token.scanFrom 0 "1".toList = .ok [⟨.atom (.number (.int 1)), 0, "1"⟩] :=
    Except.toOption_eq_some_iff.mp (by decide +kernel)
  have hlimit : digitLimit < digitLimit + 1 := Nat.lt_succ_self _
  refine ⟨?_, readAll_zeros hlimit, ?_⟩
  · rw [readAll, Token.scan, hscan]
    rfl
  · rintro ⟨e, h⟩
    rw [readAll, Token.scan, toList_below, Token.scanFrom_newline hscan, scanFrom_zeros hlimit] at h
    cases h

end Datum

end AnnotatedScheme
