/-!
# Quoted text

A string is written between double quotes. `encode` puts a backslash before each quote and each
backslash, and leaves all other characters as they are. `decode` reads the text after an opening
quote up to the closing one; besides the two escapes that are written it knows `\n` and `\t`.
What is written is read back: `decode_encode`.
-/

namespace AnnotatedScheme.Quoted

/-! ## escapes -/

def mustEscape (c : Char) : Bool := c = '"' || c = '\\'

/-- the character that a backslash and `c` stand for -/
def escaped? (c : Char) : Option Char :=
  if c = '"' then some '"'
  else if c = '\\' then some '\\'
  else if c = 'n' then some '\n'
  else if c = 't' then some '\t'
  else none

theorem escaped?_of_mustEscape {c : Char} (h : mustEscape c = true) : escaped? c = some c := by
  simp only [mustEscape, Bool.or_eq_true, decide_eq_true_eq] at h
  rcases h with rfl | rfl <;> rfl

/-! ## writing -/

def encode : List Char → List Char
  | [] => []
  | c :: rest => if mustEscape c then '\\' :: c :: encode rest else c :: encode rest

def text (content : String) : String := String.ofList ('"' :: encode content.toList ++ ['"'])

/-! ## reading -/

inductive Fault
  | unclosed
  /-- a character that is no escape, `offset` characters after the opening quote -/
  | invalidEscape (escape : Char) (offset : Nat)
  deriving DecidableEq

structure Body where
  content : List Char
  /-- characters read, the closing quote among them -/
  length : Nat
  deriving DecidableEq

abbrev Reading := Except Fault Body

/-- the reading of a text that begins one character earlier, with a backslash -/
def Reading.later : Reading → Reading
  | .ok body => .ok ⟨body.content, body.length + 1⟩
  | .error .unclosed => .error .unclosed
  | .error (.invalidEscape escape offset) => .error (.invalidEscape escape (offset + 1))

/-- the reading of a text that begins one character earlier, with a character that means `c` -/
def Reading.push (c : Char) : Reading → Reading
  | .ok body => .ok ⟨c :: body.content, body.length + 1⟩
  | .error .unclosed => .error .unclosed
  | .error (.invalidEscape escape offset) => .error (.invalidEscape escape (offset + 1))

mutual
def decode : List Char → Reading
  | [] => .error .unclosed
  | c :: rest =>
    if c = '"' then .ok ⟨[], 1⟩
    else if c = '\\' then (decodeEscape rest).later
    else (decode rest).push c

/-- the rest of a text whose last character was a backslash -/
def decodeEscape : List Char → Reading
  | [] => .error .unclosed
  | c :: rest =>
    match escaped? c with
    | some d => (decode rest).push d
    | none => .error (.invalidEscape c 0)
end

theorem decode_encode (s rest : List Char) :
    decode (encode s ++ '"' :: rest) = .ok ⟨s, (encode s).length + 1⟩ := by
  induction s with
  | nil => simp [encode, decode]
  | cons c s ih =>
    by_cases h : mustEscape c = true
    · simp [encode, decode, decodeEscape, h, escaped?_of_mustEscape h, ih, Reading.push,
        Reading.later]
    · have hc : ¬ c = '"' ∧ ¬ c = '\\' := by simpa [mustEscape] using h
      simp [encode, decode, h, hc, ih, Reading.push]

theorem Reading.later_eq_ok {r : Reading} {body : Body} (h : r.later = .ok body) :
    ∃ shorter, r = .ok shorter ∧ body = ⟨shorter.content, shorter.length + 1⟩ := by
  cases r with
  | ok shorter => exact ⟨shorter, rfl, (Except.ok.inj h).symm⟩
  | error fault => cases fault <;> cases h

theorem Reading.push_eq_ok {c : Char} {r : Reading} {body : Body} (h : r.push c = .ok body) :
    ∃ shorter, r = .ok shorter ∧ body = ⟨c :: shorter.content, shorter.length + 1⟩ := by
  cases r with
  | ok shorter => exact ⟨shorter, rfl, (Except.ok.inj h).symm⟩
  | error fault => cases fault <;> cases h

mutual
theorem length_le_of_decode {body : Body} :
    ∀ {text : List Char}, decode text = .ok body → body.length ≤ text.length
  | [], h => by simp [decode] at h
  | c :: rest, h => by
    rw [decode] at h
    split at h
    · rw [← Except.ok.inj h]; simp
    · split at h
      · obtain ⟨shorter, hs, rfl⟩ := Reading.later_eq_ok h
        exact Nat.succ_le_succ (length_le_of_decodeEscape hs)
      · obtain ⟨shorter, hs, rfl⟩ := Reading.push_eq_ok h
        exact Nat.succ_le_succ (length_le_of_decode hs)

theorem length_le_of_decodeEscape {body : Body} :
    ∀ {text : List Char}, decodeEscape text = .ok body → body.length ≤ text.length
  | [], h => by simp [decodeEscape] at h
  | c :: rest, h => by
    rw [decodeEscape] at h
    split at h
    · obtain ⟨shorter, hs, rfl⟩ := Reading.push_eq_ok h
      exact Nat.succ_le_succ (length_le_of_decode hs)
    · simp at h
end

end AnnotatedScheme.Quoted
