import AnnotatedScheme.Proofs.Datum.Piece
import AnnotatedScheme.Proofs.Datum.Scan
import AnnotatedScheme.Proofs.Exp.Shape

/-!
# What the reader makes

What holds of the atoms of tokens, and goes from data to the lists and quotes of them, holds of all
data that are read (`Datum.forall_of_readAll`). A symbol that is read is a dot or a name that one
symbol is read from (`IsSymbol`).
-/

namespace AnnotatedScheme

/-- the names of the symbols in data that were read -/
def IsSymbol (name : String) : Prop := name = "." ∨ isSymbolName name = true

namespace Token

theorem isSymbolName_of_scanFrom {line : Nat} {text : List Char} {tokens : List Token}
    (h : scanFrom line text = .ok tokens) {token : Token} (htoken : token ∈ tokens) {name : String}
    (hshape : token.shape = .atom (.symbol name)) : isSymbolName name = true := by
  obtain ⟨next, hspells⟩ := exists_spells_of_mem h htoken
  exact (hshape ▸ hspells).isSymbolName

end Token

namespace Datum

/-! What holds of the data of the tokens holds of all data that the reader makes of them. -/

section

variable {P : Datum → Prop}

/-- what an open place makes of data with `P` has `P` -/
def Pending.Keeps (P : Datum → Prop) : Pending → Prop
  | .list _ items => ∀ d ∈ items, P d
  | .quote _ => ∀ d, P d → P (Datum.quote d)

theorem keeps_place {d : Datum} (hd : P d) {pending : List Pending}
    (hpending : ∀ p ∈ pending, p.Keeps P) {done : List Datum} (hdone : ∀ d ∈ done, P d) :
    (∀ p ∈ (place d pending done).1, p.Keeps P) ∧ ∀ e ∈ (place d pending done).2, P e := by
  induction pending generalizing d with
  | nil =>
    rw [place]
    exact ⟨List.forall_mem_nil _, List.forall_mem_cons.mpr ⟨hd, hdone⟩⟩
  | cons p rest ih =>
    rw [List.forall_mem_cons] at hpending
    cases p with
    | quote line =>
      rw [place]
      exact ih (hpending.1 d hd) hpending.2
    | list line items =>
      rw [place]
      refine ⟨List.forall_mem_cons.mpr ⟨?_, hpending.2⟩, hdone⟩
      exact List.forall_mem_cons.mpr ⟨hd, hpending.1⟩

variable (dot : P dot)
  (list : ∀ items, (∀ d ∈ items, P d) → checkDots items = .ok () → P (.list items))
include dot list

theorem forall_of_ofTokensFrom {tokens : List Token}
    (atom : ∀ token ∈ tokens, ∀ value, token.shape = .atom value → P (.atom value))
    (quote : ∀ token ∈ tokens, token.shape = .quote → ∀ d, P d → P (quote d))
    {pending : List Pending} (hpending : ∀ p ∈ pending, p.Keeps P) {done : List Datum}
    (hdone : ∀ d ∈ done, P d) {data : List Datum}
    (h : ofTokensFrom pending done tokens = .ok data) : ∀ d ∈ data, P d := by
  induction tokens generalizing pending done with
  | nil =>
    unfold ofTokensFrom at h
    split at h
    · obtain rfl := Except.ok.inj h
      exact fun d hd => hdone d (List.mem_reverse.mp hd)
    · cases h
    · cases h
  | cons token rest ih =>
    rw [List.forall_mem_cons] at atom quote
    have hopened : ∀ p : Pending, p.Keeps P → ofTokensFrom (p :: pending) done rest = .ok data →
        ∀ e ∈ data, P e := fun p hp h =>
      ih atom.2 quote.2 (List.forall_mem_cons.mpr ⟨hp, hpending⟩) hdone h
    have hplaced : ∀ {d : Datum}, P d → ∀ {pending : List Pending}, (∀ p ∈ pending, p.Keeps P) →
        ofTokensFrom (place d pending done).1 (place d pending done).2 rest = .ok data →
        ∀ e ∈ data, P e := by
      intro d hd pending hpending h
      obtain ⟨hpending', hdone'⟩ := keeps_place hd hpending hdone
      exact ih atom.2 quote.2 hpending' hdone' h
    rw [ofTokensFrom.eq_def] at h
    dsimp only at h
    split at h
    · exact hopened (.list token.line []) (List.forall_mem_nil _) h
    · split at h
      · cases h
      · cases h
      · rename_i line items outer
        rw [List.forall_mem_cons] at hpending
        split at h
        · cases h
        · rename_i d hclose
          unfold close at hclose
          split at hclose
          · rename_i hdots
            obtain rfl := Except.ok.inj hclose
            have hitems : ∀ d ∈ items.reverse, P d := fun d hd =>
              hpending.1 d (List.mem_reverse.mp hd)
            exact hplaced (list _ hitems hdots) hpending.2 h
          · cases hclose
    · rename_i hshape
      exact hopened (.quote token.line) (quote.1 hshape) h
    · exact hplaced dot hpending h
    · rename_i value hshape
      exact hplaced (atom.1 value hshape) hpending h

/-- What holds of the atoms in a text, and goes from data to the lists and quotes of them, holds of
all data that are read. -/
theorem forall_of_readAll (quote : ∀ d, P d → P (quote d)) {text : String}
    (atom : ∀ tokens, Token.scan text = .ok tokens → ∀ token ∈ tokens, ∀ value,
      token.shape = .atom value → P (.atom value))
    {data : List Datum} (h : readAll text = .ok data) : ∀ d ∈ data, P d := by
  obtain ⟨tokens, htokens, hdata⟩ := readAll_eq_ok_iff.mp h
  exact forall_of_ofTokensFrom dot list (atom tokens htokens) (fun _ _ _ => quote)
    (List.forall_mem_nil _) (List.forall_mem_nil _) hdata

end

end Datum

end AnnotatedScheme
