import AnnotatedScheme.Datum.Token

/-!
# The reader

`Datum.ofTokens` makes data of tokens. It goes through the tokens once and keeps what has been
opened and not yet finished, innermost first:

* `Datum.Pending`   an open list with its items so far, or a quote that waits for its datum;
* `Datum.place`     puts a finished datum where it belongs;
* `Datum.close`     makes a list of the items between two parentheses, and checks its dots.

`Datum.readAll` reads all data of a text, `Datum.read` the only one.
-/

namespace AnnotatedScheme.Datum

inductive Pending
  /-- the line of the parenthesis, and the items so far, last one first -/
  | list (line : Nat) (items : List Datum)
  | quote (line : Nat)

/-- the open places, and the data finished outside of them, last one first, after `d` has come -/
def place (d : Datum) : List Pending → List Datum → List Pending × List Datum
  | [], done => ([], d :: done)
  | .quote _ :: pending, done => place (quote d) pending done
  | .list line items :: pending, done => (.list line (d :: items) :: pending, done)

/-- a list has one dot at most, and that is the second to last item of three or more -/
def checkDots (items : List Datum) : Except ReadError.Cause Unit :=
  if 1 < items.countP isDot then .error .severalDots
  else
    match items.findIdx? isDot with
    | some i => if i + 2 = items.length ∧ i ≠ 0 then .ok () else .error .misplacedDot
    | none => .ok ()

def close (line : Nat) (items : List Datum) : Except ReadError Datum :=
  match checkDots items with
  | .ok () => .ok (.list items)
  | .error cause => .error ⟨cause, line⟩

def ofTokensFrom (pending : List Pending) (done : List Datum) :
    List Token → Except ReadError (List Datum)
  | [] =>
    match pending with
    | [] => .ok done.reverse
    | .list line _ :: _ => .error ⟨.missingParenthesis, line⟩
    | .quote line :: _ => .error ⟨.quoteWithoutDatum, line⟩
  | token :: rest =>
    match token.shape with
    | .leftParen => ofTokensFrom (.list token.line [] :: pending) done rest
    | .rightParen =>
      match pending with
      | [] => .error ⟨.unmatchedParenthesis, token.line⟩
      | .quote line :: _ => .error ⟨.quoteWithoutDatum, line⟩
      | .list line items :: outer =>
        match close line items.reverse with
        | .error e => .error e
        | .ok d => ofTokensFrom (place d outer done).1 (place d outer done).2 rest
    | .quote => ofTokensFrom (.quote token.line :: pending) done rest
    | .dot => ofTokensFrom (place dot pending done).1 (place dot pending done).2 rest
    | .atom value =>
      ofTokensFrom (place (.atom value) pending done).1 (place (.atom value) pending done).2 rest

def ofTokens (tokens : List Token) : Except ReadError (List Datum) := ofTokensFrom [] [] tokens

def readAll (text : String) : Except (Unread ReadError) (List Datum) := do
  (ofTokens (← Token.scan text)).mapError .reader

def read (text : String) : Except (Unread ReadError) Datum := do
  match ← readAll text with
  | [d] => .ok d
  | data => .error (.reader ⟨.notOneExpression data.length, 0⟩)

theorem readAll_eq_ok_iff {text : String} {data : List Datum} : readAll text = .ok data ↔
    ∃ tokens, Token.scan text = .ok tokens ∧ ofTokens tokens = .ok data := by
  unfold readAll
  cases Token.scan text with
  | error reason => simp [bind, Except.bind]
  | ok tokens =>
    show (ofTokens tokens).mapError Unread.reader = .ok data ↔ _
    constructor
    · intro hdata
      refine ⟨tokens, rfl, ?_⟩
      cases h : ofTokens tokens with
      | error e =>
        rw [h] at hdata
        cases hdata
      | ok found =>
        rw [h] at hdata
        exact congrArg Except.ok (Except.ok.inj hdata)
    · rintro ⟨found, hfound, hdata⟩
      obtain rfl := Except.ok.inj hfound
      rw [hdata]
      rfl

end AnnotatedScheme.Datum
