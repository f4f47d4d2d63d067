import AnnotatedScheme.Datum.Reader
import AnnotatedScheme.Proofs.Lists

/-!
# The reader stays inside of its input

A token ends before the text does (`Token.length_le_of_shapeOf`), an escape that is not known is a
character of the text (`Quoted.get_of_decode`), and what is wrong with tokens is wrong in the line
of one of them (`Datum.line_of_ofTokens`).
-/

namespace AnnotatedScheme

/-! ## strings -/

namespace Quoted

theorem Reading.offset_of_later {r : Reading} {c : Char} {offset : Nat}
    (h : r.later = .error (.invalidEscape c offset)) :
    ∃ n, r = .error (.invalidEscape c n) ∧ offset = n + 1 := by
  cases r with
  | ok body => cases h
  | error fault =>
    cases fault with
    | unclosed => cases h
    | invalidEscape d n =>
      obtain ⟨rfl, rfl⟩ := Fault.invalidEscape.inj (Except.error.inj h)
      exact ⟨n, rfl, rfl⟩

theorem Reading.offset_of_push {r : Reading} {c d : Char} {offset : Nat}
    (h : r.push d = .error (.invalidEscape c offset)) :
    ∃ n, r = .error (.invalidEscape c n) ∧ offset = n + 1 := by
  cases r with
  | ok body => cases h
  | error fault =>
    cases fault with
    | unclosed => cases h
    | invalidEscape d n =>
      obtain ⟨rfl, rfl⟩ := Fault.invalidEscape.inj (Except.error.inj h)
      exact ⟨n, rfl, rfl⟩

/-! The character of the error is the one at its offset, in a text and behind a backslash. -/

mutual
theorem get_of_decode {escape : Char} {offset : Nat} :
    ∀ {text : List Char}, decode text = .error (.invalidEscape escape offset) →
      text[offset]? = some escape
  | [], h => by cases h
  | c :: rest, h => by
    rw [decode] at h
    split at h
    · cases h
    split at h
    · obtain ⟨n, hn, rfl⟩ := Reading.offset_of_later h
      exact List.getElem?_cons_succ.trans (get_of_decodeEscape hn)
    · obtain ⟨n, hn, rfl⟩ := Reading.offset_of_push h
      exact List.getElem?_cons_succ.trans (get_of_decode hn)

theorem get_of_decodeEscape {escape : Char} {offset : Nat} :
    ∀ {text : List Char}, decodeEscape text = .error (.invalidEscape escape offset) →
      text[offset]? = some escape
  | [], h => by cases h
  | c :: rest, h => by
    rw [decodeEscape] at h
    split at h
    · obtain ⟨n, hn, rfl⟩ := Reading.offset_of_push h
      exact List.getElem?_cons_succ.trans (get_of_decode hn)
    · obtain ⟨rfl, rfl⟩ := Fault.invalidEscape.inj (Except.error.inj h)
      rfl
end

end Quoted

/-! ## tokens -/

namespace Token

theorem length_le_of_scan {c : Char} {rest : List Char} {value : Atom} {n : Nat}
    (h : Atom.scan c rest = .ok (value, n)) : n ≤ rest.length := by
  unfold Atom.scan at h
  dsimp only at h
  split at h
  · cases h
  · cases hvalue : Atom.ofLexeme (c :: rest.takeWhile fun d => !endsAtom d) with
    | error cause =>
      rw [hvalue] at h
      cases h
    | ok atom =>
      rw [hvalue] at h
      obtain ⟨-, rfl⟩ := Prod.mk.inj (Except.ok.inj h)
      exact (List.takeWhile_sublist _).length_le

theorem length_le_of_scanString {line : Nat} {rest : List Char} {value : Atom} {n : Nat}
    (h : scanString line rest = .ok (value, n)) : n ≤ rest.length := by
  unfold scanString at h
  split at h
  · rename_i body hdecode
    obtain ⟨-, rfl⟩ := Prod.mk.inj (Except.ok.inj h)
    exact Quoted.length_le_of_decode hdecode
  · cases h
  · cases h

/-- No token goes on behind the end of the text. -/
theorem length_le_of_shapeOf {line : Nat} {c : Char} {rest : List Char} {shape : Shape} {n : Nat}
    (h : shapeOf line c rest = .ok (shape, n)) : n ≤ rest.length := by
  have hzero : ∀ {s : Shape}, Except.ok (s, 0) = (.ok (shape, n) : Except (Unread ReadError) _) →
      n ≤ rest.length := by
    intro s h
    obtain ⟨-, rfl⟩ := Prod.mk.inj (Except.ok.inj h)
    exact Nat.zero_le _
  unfold shapeOf at h
  split at h
  · exact hzero h
  split at h
  · exact hzero h
  split at h
  · split at h
    · exact hzero h
    · cases h
  split at h
  · cases hstring : scanString line rest with
    | error error =>
      rw [hstring] at h
      cases h
    | ok result =>
      rw [hstring] at h
      obtain ⟨-, rfl⟩ := Prod.mk.inj (Except.ok.inj h)
      exact length_le_of_scanString hstring
  split at h
  · exact hzero h
  split at h
  · rename_i hscan
    obtain ⟨-, rfl⟩ := Prod.mk.inj (Except.ok.inj h)
    exact length_le_of_scan hscan
  · cases h

end Token

/-! ## data -/

namespace Datum

def Pending.line : Pending → Nat
  | .list line _ => line
  | .quote line => line

/-- what is still open when a datum has been placed was open before, in the same line -/
theorem line_of_mem_place {d : Datum} {pending : List Pending} {done : List Datum} {p : Pending}
    (h : p ∈ (place d pending done).1) : ∃ p' ∈ pending, p.line = p'.line := by
  induction pending generalizing d with
  | nil => exact absurd h List.not_mem_nil
  | cons q rest ih =>
    cases q with
    | quote line =>
      rw [place] at h
      obtain ⟨p', hp', hline⟩ := ih h
      exact ⟨p', List.mem_cons_of_mem _ hp', hline⟩
    | list line items =>
      rw [place] at h
      rcases List.mem_cons.mp h with rfl | h
      · exact ⟨_, List.mem_cons_self, rfl⟩
      · exact ⟨p, List.mem_cons_of_mem _ h, rfl⟩

theorem line_of_ofTokensFrom {tokens : List Token} {lines : List Nat}
    (htokens : ∀ token ∈ tokens, token.line ∈ lines) {pending : List Pending}
    (hpending : ∀ p ∈ pending, p.line ∈ lines) {done : List Datum} {e : ReadError}
    (h : ofTokensFrom pending done tokens = .error e) : e.line ∈ lines := by
  induction tokens generalizing pending done with
  | nil =>
    unfold ofTokensFrom at h
    split at h
    · cases h
    · obtain rfl := Except.error.inj h
      exact hpending _ List.mem_cons_self
    · obtain rfl := Except.error.inj h
      exact hpending _ List.mem_cons_self
  | cons token rest ih =>
    rw [List.forall_mem_cons] at htokens
    have hplaced : ∀ {d : Datum} {outer : List Pending}, (∀ p ∈ outer, p.line ∈ lines) →
        ofTokensFrom (place d outer done).1 (place d outer done).2 rest = .error e →
        e.line ∈ lines := by
      intro d outer houter h
      refine ih htokens.2 (fun p hp => ?_) h
      obtain ⟨p', hp', hline⟩ := line_of_mem_place hp
      exact hline ▸ houter p' hp'
    have hopened : ∀ {p : Pending}, p.line = token.line →
        ofTokensFrom (p :: pending) done rest = .error e → e.line ∈ lines := by
      intro p hp h
      exact ih htokens.2 (List.forall_mem_cons.mpr ⟨hp ▸ htokens.1, hpending⟩) h
    rw [ofTokensFrom.eq_def] at h
    dsimp only at h
    split at h
    · exact hopened rfl h
    · split at h
      · obtain rfl := Except.error.inj h
        exact htokens.1
      · obtain rfl := Except.error.inj h
        exact hpending _ List.mem_cons_self
      · rename_i line items outer
        rw [List.forall_mem_cons] at hpending
        split at h
        · rename_i error hclose
          obtain rfl := Except.error.inj h
          unfold close at hclose
          split at hclose
          · cases hclose
          · obtain rfl := Except.error.inj hclose
            exact hpending.1
        · exact hplaced hpending.2 h
    · exact hopened rfl h
    · exact hplaced hpending h
    · exact hplaced hpending h

/-- What is wrong with tokens is wrong in the line of one of them. -/
theorem line_of_ofTokens {tokens : List Token} {e : ReadError} (h : ofTokens tokens = .error e) :
    ∃ token ∈ tokens, token.line = e.line :=
  List.mem_map.mp (line_of_ofTokensFrom (fun _ => List.mem_map_of_mem) (List.forall_mem_nil _) h)

end Datum

end AnnotatedScheme
