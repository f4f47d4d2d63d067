import AnnotatedScheme.Proofs.Datum.Bounds
import AnnotatedScheme.Proofs.Datum.Scan

/-!
# The grammar of tokens

    datum → atom | dot | quote datum | ( datum* )

where a list in parentheses has one dot at most, which is second to last and not in front.
`Datum.Derives` are the derivations of this grammar, and `Datum.Derivations` those of the data that
make up a whole list of tokens.

* `Derives.places`         the reader puts a derived datum in its place, so it accepts what is
                           derived;
* `Follows`                what the reader keeps, as derivations of the tokens it has gone through:
                           it holds at the start, and each step keeps it (`Follows.place`), so what
                           is accepted is derived (`Follows.derivations`);
* `Derives.prefix_unique`  no datum is derived from a proper beginning of the tokens of another, so
                           derivations are unique.
-/

namespace AnnotatedScheme.Datum

/-! ## dots -/

def DotsAllowed (items : List Datum) : Prop :=
  items.countP isDot ≤ 1 ∧ ∀ i : Nat, items[i]? = some dot → i + 2 = items.length ∧ i ≠ 0

/-- a list with one such item at most has it in one place only -/
theorem index_unique_of_countP {α : Type} {p : α → Bool} {as : List α} (h : as.countP p ≤ 1)
    {i j : Nat} {a b : α} (hi : as[i]? = some a) (hj : as[j]? = some b) (ha : p a = true)
    (hb : p b = true) : i = j := by
  induction as generalizing i j with
  | nil => cases hi
  | cons c rest ih =>
    have hrest : ∀ {k : Nat} {d : α}, rest[k]? = some d → p d = true → 0 < rest.countP p :=
      fun hk hd => List.countP_pos_iff.mpr ⟨_, List.mem_of_getElem? hk, hd⟩
    rw [List.countP_cons] at h
    cases i with
    | zero =>
      obtain rfl := Option.some.inj hi
      cases j with
      | zero => rfl
      | succ j =>
        have hpos := hrest hj hb
        rw [if_pos ha] at h
        omega
    | succ i =>
      cases j with
      | zero =>
        obtain rfl := Option.some.inj hj
        have hpos := hrest hi ha
        rw [if_pos hb] at h
        omega
      | succ j =>
        have hle : rest.countP p ≤ 1 := by omega
        rw [ih hle hi hj]

theorem checkDots_iff {items : List Datum} : checkDots items = .ok () ↔ DotsAllowed items := by
  have hdot : dot.isDot = true := isDot_eq_true_iff.mpr rfl
  unfold checkDots DotsAllowed
  by_cases hseveral : 1 < items.countP isDot
  · rw [if_pos hseveral]
    exact iff_of_false nofun fun h => by omega
  rw [if_neg hseveral]
  cases hfind : items.findIdx? isDot with
  | none =>
    refine iff_of_true rfl ⟨by omega, fun i hi => ?_⟩
    have hfalse := List.findIdx?_eq_none_iff.mp hfind dot (List.mem_of_getElem? hi)
    rw [hdot] at hfalse
    cases hfalse
  | some i =>
    obtain ⟨hlt, hitem, -⟩ := List.findIdx?_eq_some_iff_getElem.mp hfind
    have hi : items[i]? = some dot := by
      rw [List.getElem?_eq_getElem hlt, isDot_eq_true_iff.mp hitem]
    show (if i + 2 = items.length ∧ i ≠ 0 then _ else _) = _ ↔ _
    by_cases hplace : i + 2 = items.length ∧ i ≠ 0
    · rw [if_pos hplace]
      refine iff_of_true rfl ⟨by omega, fun j hj => ?_⟩
      obtain rfl := index_unique_of_countP (by omega) hi hj hdot hdot
      exact hplace
    · rw [if_neg hplace]
      exact iff_of_false nofun fun h => hplace (h.2 i hi)

/-! ## derivations -/

inductive Derives : List Token → Datum → Prop
  | atom {token : Token} {value : Atom} (h : token.shape = .atom value) :
      Derives [token] (.atom value)
  | dot {token : Token} (h : token.shape = .dot) : Derives [token] dot
  | quote {token : Token} {tokens : List Token} {d : Datum} (h : token.shape = .quote)
      (inner : Derives tokens d) : Derives (token :: tokens) (quote d)
  | list {opening closing : Token} {ps : List (List Token × Datum)}
      (hopening : opening.shape = .leftParen) (hclosing : closing.shape = .rightParen)
      (items : ∀ p ∈ ps, Derives p.1 p.2) (hdots : DotsAllowed (ps.map Prod.snd)) :
      Derives (opening :: (ps.flatMap Prod.fst ++ [closing])) (.list (ps.map Prod.snd))

/-- tokens as those of data, one datum after the other -/
def Derivations (tokens : List Token) (ps : List (List Token × Datum)) : Prop :=
  tokens = ps.flatMap Prod.fst ∧ ∀ p ∈ ps, Derives p.1 p.2

variable {tokens more : List Token} {d : Datum} {ps : List (List Token × Datum)}

/-! ## what is derived is accepted -/

theorem places_of_shape {shape : Token.Shape}
    (h : ∀ token : Token, token.shape = shape → ∀ pending done more,
      ofTokensFrom pending done (token :: more) =
        ofTokensFrom (place d pending done).1 (place d pending done).2 more) :
    Places [shape] d := by
  intro tokens htokens pending done more
  obtain ⟨token, rfl, hshape⟩ := List.map_eq_singleton_iff.mp htokens
  exact h token hshape pending done more

theorem Derives.places (h : Derives tokens d) : Places (tokens.map Token.shape) d := by
  induction h with
  | @atom token value hshape =>
    rw [List.map_singleton, hshape]
    refine places_of_shape fun token hshape pending done more => ?_
    rw [ofTokensFrom.eq_def]
    simp only [hshape]
  | @dot token hshape =>
    rw [List.map_singleton, hshape]
    refine places_of_shape fun token hshape pending done more => ?_
    rw [ofTokensFrom.eq_def]
    simp only [hshape]
  | quote hshape _ ih =>
    rw [List.map_cons, hshape]
    exact places_quote ih
  | @list opening closing ps hopening hclosing _ hdots ih =>
    have hplaces : ∀ p ∈ ps.map fun p => (p.1.map Token.shape, p.2), Places p.1 p.2 :=
      List.forall_mem_map.mpr ih
    have hlist := places_list hplaces (by rw [List.map_map]; exact checkDots_iff.mpr hdots)
    rw [List.map_map, List.flatMap_map] at hlist
    rw [List.map_cons, List.map_append, hopening, List.map_singleton, hclosing, List.map_flatMap]
    exact hlist

theorem ofTokensFrom_of_derives (h : ∀ p ∈ ps, Derives p.1 p.2) (done : List Datum) :
    ofTokensFrom [] done (ps.flatMap Prod.fst) = .ok (done.reverse ++ ps.map Prod.snd) := by
  induction ps generalizing done with
  | nil => simp [ofTokensFrom]
  | cons p rest ih =>
    rw [List.forall_mem_cons] at h
    rw [List.flatMap_cons, h.1.places p.1 rfl, place, ih h.2]
    simp

/-! ## what is accepted is derived -/

/-- Tokens that the reader has gone through, with the places that are open behind them and the data
that are finished outside of these: each is made of derivations. -/
inductive Follows : List Token → List Pending → List Datum → Prop
  | done {ps : List (List Token × Datum)} (h : ∀ p ∈ ps, Derives p.1 p.2) :
      Follows (ps.flatMap Prod.fst) [] (ps.map Prod.snd).reverse
  | list {tokens : List Token} {opening : Token} {ps : List (List Token × Datum)}
      {pending : List Pending} {done : List Datum} (outer : Follows tokens pending done)
      (hopening : opening.shape = .leftParen) (h : ∀ p ∈ ps, Derives p.1 p.2) :
      Follows (tokens ++ opening :: ps.flatMap Prod.fst)
        (.list opening.line (ps.map Prod.snd).reverse :: pending) done
  | quote {tokens : List Token} {token : Token} {pending : List Pending} {done : List Datum}
      (outer : Follows tokens pending done) (h : token.shape = .quote) :
      Follows (tokens ++ [token]) (.quote token.line :: pending) done

variable {pending : List Pending} {done : List Datum}

theorem Follows.start : Follows [] [] [] := @Follows.done [] (List.forall_mem_nil _)

theorem Follows.opened (h : Follows tokens pending done) {token : Token}
    (hshape : token.shape = .leftParen) :
    Follows (tokens ++ [token]) (.list token.line [] :: pending) done :=
  @Follows.list tokens token [] pending done h hshape (List.forall_mem_nil _)

theorem forall_derives_concat (h : ∀ p ∈ ps, Derives p.1 p.2) {inner : List Token}
    (hinner : Derives inner d) : ∀ p ∈ ps ++ [(inner, d)], Derives p.1 p.2 :=
  List.forall_mem_append.mpr ⟨h, List.forall_mem_singleton.mpr hinner⟩

/-- A derived datum in its place is one more derivation, or ends the quotes in front of it. -/
theorem Follows.place (h : Follows tokens pending done) {inner : List Token}
    (hinner : Derives inner d) :
    Follows (tokens ++ inner) (place d pending done).1 (place d pending done).2 := by
  induction h generalizing d inner with
  | @done ps h =>
    have hdone := Follows.done (forall_derives_concat h hinner)
    rw [List.flatMap_append, List.flatMap_singleton, List.map_append, List.reverse_append] at hdone
    exact hdone
  | @list tokens opening ps pending done outer hopening h _ =>
    have hlist := Follows.list outer hopening (forall_derives_concat h hinner)
    rw [List.flatMap_append, List.flatMap_singleton, List.map_append, List.reverse_append] at hlist
    rw [List.append_assoc, List.cons_append]
    exact hlist
  | @quote tokens token pending done outer hshape ih =>
    have hplaced := ih (.quote hshape hinner)
    rw [List.append_assoc, List.singleton_append]
    exact hplaced

theorem Follows.derivations (h : Follows tokens pending done) {ds : List Datum}
    (hread : ofTokensFrom pending done more = .ok ds) :
    ∃ ps, Derivations (tokens ++ more) ps ∧ ps.map Prod.snd = ds := by
  induction more generalizing tokens pending done with
  | nil =>
    cases h with
    | @done ps h =>
      obtain rfl := Except.ok.inj hread
      refine ⟨ps, ⟨List.append_nil _, h⟩, ?_⟩
      rw [List.reverse_reverse]
    | list => cases hread
    | quote => cases hread
  | cons token more ih =>
    rw [ofTokensFrom.eq_def] at hread
    rw [← List.singleton_append, ← List.append_assoc]
    dsimp only at hread
    split at hread
    · rename_i hshape
      exact ih (h.opened hshape) hread
    · rename_i hshape
      -- only an open list can be closed
      cases h with
      | done => cases hread
      | quote => cases hread
      | @list tokens opening ps pending done outer hopening hps =>
        dsimp only at hread
        split at hread
        · cases hread
        rename_i d hclose
        unfold close at hclose
        split at hclose
        · rename_i hdots
          obtain rfl := Except.ok.inj hclose
          rw [List.reverse_reverse] at hdots hread
          have hlist := Derives.list hopening hshape hps (checkDots_iff.mp hdots)
          have hplaced := outer.place hlist
          rw [← List.cons_append, ← List.append_assoc] at hplaced
          exact ih hplaced hread
        · cases hclose
    · rename_i hshape
      exact ih (.quote h hshape) hread
    · rename_i hshape
      exact ih (h.place (.dot hshape)) hread
    · rename_i hshape
      exact ih (h.place (.atom hshape)) hread

/-! ## derivations are unique -/

/-- what the shape of its first token says about a derivation and the tokens that follow -/
def Continues (rest : List Token) (d : Datum) : Token.Shape → Prop
  | .atom value => rest = [] ∧ d = .atom value
  | .dot => rest = [] ∧ d = dot
  | .quote => ∃ inner, Derives rest inner ∧ d = quote inner
  | .leftParen => ∃ (ps : List (List Token × Datum)) (closing : Token),
      rest = ps.flatMap Prod.fst ++ [closing] ∧ closing.shape = .rightParen ∧
        (∀ p ∈ ps, Derives p.1 p.2) ∧ d = .list (ps.map Prod.snd)
  | .rightParen => False

theorem Derives.head (h : Derives tokens d) :
    ∃ token rest, tokens = token :: rest ∧ Continues rest d token.shape := by
  cases h with
  | @atom token value h => exact ⟨token, [], rfl, by rw [h]; exact ⟨rfl, rfl⟩⟩
  | @dot token h => exact ⟨token, [], rfl, by rw [h]; exact ⟨rfl, rfl⟩⟩
  | @quote token tokens d h inner => exact ⟨token, tokens, rfl, by rw [h]; exact ⟨d, inner, rfl⟩⟩
  | @list opening closing ps hopening hclosing items _ =>
    refine ⟨opening, ps.flatMap Prod.fst ++ [closing], rfl, ?_⟩
    rw [hopening]
    exact ⟨ps, closing, rfl, hclosing, items, rfl⟩

/-- no datum begins here -/
def Ends (tokens : List Token) : Prop := ∀ token ∈ tokens.head?, token.shape = .rightParen

theorem Derives.not_ends (h : Derives tokens d) : ¬Ends (tokens ++ more) := by
  obtain ⟨token, rest, rfl, hcontinues⟩ := h.head
  intro hends
  rw [hends token rfl] at hcontinues
  exact hcontinues

/-- what stands in front of other tokens is derived in one way only -/
def PrefixUnique (tokens : List Token) (d : Datum) : Prop :=
  ∀ tokens' d' more more', Derives tokens' d' → tokens ++ more = tokens' ++ more' →
    tokens = tokens' ∧ d = d'

/-- data up to the end of a list, or of all tokens, are cut in one way only -/
theorem unique_of_prefixUnique (h : ∀ p ∈ ps, Derives p.1 p.2 ∧ PrefixUnique p.1 p.2)
    {qs : List (List Token × Datum)} (h' : ∀ q ∈ qs, Derives q.1 q.2) {more' : List Token}
    (hends : Ends more) (hends' : Ends more')
    (heq : ps.flatMap Prod.fst ++ more = qs.flatMap Prod.fst ++ more') :
    ps = qs ∧ more = more' := by
  induction ps generalizing qs with
  | nil =>
    cases qs with
    | nil => exact ⟨rfl, heq⟩
    | cons q qs =>
      have hq := h' q List.mem_cons_self
      rw [List.flatMap_nil, List.nil_append, List.flatMap_cons, List.append_assoc] at heq
      exact absurd (heq ▸ hends) hq.not_ends
  | cons p ps ih =>
    obtain ⟨⟨hp, hunique⟩, hps⟩ := List.forall_mem_cons.mp h
    cases qs with
    | nil =>
      rw [List.flatMap_cons, List.append_assoc, List.flatMap_nil, List.nil_append] at heq
      exact absurd (heq ▸ hends') hp.not_ends
    | cons q qs =>
      obtain ⟨hq, hqs⟩ := List.forall_mem_cons.mp h'
      rw [List.flatMap_cons, List.flatMap_cons, List.append_assoc, List.append_assoc] at heq
      obtain ⟨htokens, hd⟩ := hunique q.1 q.2 _ _ hq heq
      rw [htokens] at heq
      obtain ⟨rfl, rfl⟩ := ih hps hqs (List.append_cancel_left heq)
      exact ⟨by rw [show p = q from Prod.ext htokens hd], rfl⟩

/-- two derivations in front of the same tokens begin with the same token -/
theorem Derives.continues {token : Token} {rest tokens' more' : List Token} {d' : Datum}
    (h' : Derives tokens' d') (heq : token :: rest ++ more = tokens' ++ more') :
    ∃ rest', tokens' = token :: rest' ∧ Continues rest' d' token.shape ∧
      rest ++ more = rest' ++ more' := by
  obtain ⟨token', rest', rfl, hcontinues⟩ := h'.head
  obtain ⟨rfl, htail⟩ := List.cons.inj heq
  exact ⟨rest', rfl, hcontinues, htail⟩

theorem Derives.prefixUnique (h : Derives tokens d) : PrefixUnique tokens d := by
  induction h with
  | @atom token value h =>
    intro tokens' d' more more' h' heq
    obtain ⟨rest', rfl, hcontinues, -⟩ := h'.continues heq
    rw [h] at hcontinues
    obtain ⟨rfl, rfl⟩ := hcontinues
    exact ⟨rfl, rfl⟩
  | @dot token h =>
    intro tokens' d' more more' h' heq
    obtain ⟨rest', rfl, hcontinues, -⟩ := h'.continues heq
    rw [h] at hcontinues
    obtain ⟨rfl, rfl⟩ := hcontinues
    exact ⟨rfl, rfl⟩
  | @quote token tokens d h _ ih =>
    intro tokens' d' more more' h' heq
    obtain ⟨rest', rfl, hcontinues, htail⟩ := h'.continues heq
    rw [h] at hcontinues
    obtain ⟨inner, hinner, rfl⟩ := hcontinues
    obtain ⟨rfl, rfl⟩ := ih rest' inner more more' hinner htail
    exact ⟨rfl, rfl⟩
  | @list opening closing ps hopening hclosing items _ ih =>
    intro tokens' d' more more' h' heq
    obtain ⟨rest', rfl, hcontinues, htail⟩ := h'.continues heq
    rw [hopening] at hcontinues
    obtain ⟨qs, closing', rfl, hclosing', hqs, rfl⟩ := hcontinues
    rw [List.append_assoc, List.append_assoc] at htail
    have hends : Ends ([closing] ++ more) := fun token h => Option.some.inj h ▸ hclosing
    have hends' : Ends ([closing'] ++ more') := fun token h => Option.some.inj h ▸ hclosing'
    -- the closing parentheses end the items of both lists
    obtain ⟨rfl, hmore⟩ := unique_of_prefixUnique (fun p hp => ⟨items p hp, ih p hp⟩) hqs hends
      hends' htail
    obtain ⟨rfl, -⟩ := List.cons.inj hmore
    exact ⟨rfl, rfl⟩

/-! ## the grammar -/

theorem ofTokens_eq_ok_iff {ds : List Datum} :
    ofTokens tokens = .ok ds ↔ ∃ ps, Derivations tokens ps ∧ ps.map Prod.snd = ds := by
  constructor
  · intro h
    exact Follows.start.derivations h
  · rintro ⟨ps, ⟨rfl, hps⟩, rfl⟩
    exact ofTokensFrom_of_derives hps []

theorem Derivations.unique {ps' : List (List Token × Datum)} (h : Derivations tokens ps)
    (h' : Derivations tokens ps') : ps = ps' := by
  have hends : Ends [] := fun token h => nomatch h
  have heq : ps.flatMap Prod.fst ++ [] = ps'.flatMap Prod.fst ++ [] := by rw [← h.1, ← h'.1]
  exact (unique_of_prefixUnique (fun p hp => ⟨h.2 p hp, (h.2 p hp).prefixUnique⟩) h'.2 hends hends
    heq).1

/-- The reader accepts just the lists of tokens that are made of derivations, and makes the data
that are derived; there is one way to derive them. All others end with an error in the line of a
token. -/
theorem ofTokens_iff_derivations (tokens : List Token) :
    (∀ ds, ofTokens tokens = .ok ds ↔ ∃ ps, Derivations tokens ps ∧ ps.map Prod.snd = ds) ∧
      (∀ ps ps', Derivations tokens ps → Derivations tokens ps' → ps = ps') ∧
      ((¬∃ ps, Derivations tokens ps) ↔
        ∃ e, ofTokens tokens = .error e ∧ ∃ token ∈ tokens, token.line = e.line) := by
  refine ⟨fun ds => ofTokens_eq_ok_iff, fun ps ps' => Derivations.unique, fun h => ?_, fun h => ?_⟩
  · cases hread : ofTokens tokens with
    | ok ds =>
      obtain ⟨ps, hps, -⟩ := ofTokens_eq_ok_iff.mp hread
      exact absurd ⟨ps, hps⟩ h
    | error e => exact ⟨e, rfl, line_of_ofTokens hread⟩
  · obtain ⟨e, herror, -⟩ := h
    rintro ⟨ps, hps⟩
    have hok := ofTokens_eq_ok_iff.mpr ⟨ps, hps, rfl⟩
    rw [hok] at herror
    cases herror

end AnnotatedScheme.Datum
