import AnnotatedScheme.Text.Utf8
import Mathlib.Algebra.Group.Nat.Defs

/-!
# Reading UTF-8 back

The bytes of a text are decoded to its characters (`Utf8.decode_toUTF8`), whatever they are: up to
four bytes for each, the byte order mark and control characters like any others.

The first byte of a character has the bits in front, each byte behind it adds six more.
`Unfinished.Toward n` says that the bits so far are the first ones of `n`, and that the next byte of
`n` is let through. It holds behind the first byte of a character (`Begins`), and each byte that
continues the character keeps it (`Unfinished.Toward.next?`).
-/

namespace AnnotatedScheme.Utf8

/-- the byte of a code point behind which `k` more bytes follow, other than the first one -/
def continuation (n k : Nat) : UInt8 := UInt8.ofNat (n / 64 ^ k % 64 + 0x80)

/-- the last `k` bytes of a code point -/
def continuations (n : Nat) : Nat → List UInt8
  | 0 => []
  | k + 1 => continuation n k :: continuations n k

structure Unfinished.Toward (n : Nat) (p : Unfinished) : Prop where
  bits : p.bits = n / 64 ^ p.missing
  inRange : ∀ k, p.missing = k + 1 →
    p.least ≤ n / 64 ^ k % 64 + 0x80 ∧ n / 64 ^ k % 64 + 0x80 ≤ p.greatest

variable {n k : Nat} {p : Unfinished} {rest : List UInt8} {text : List Char}

-- the bound as a numeral, for `omega`
theorem toNat_ofNat {b : Nat} (h : b < 256) : (UInt8.ofNat b).toNat = b :=
  UInt8.toNat_ofNat_of_lt' h

theorem toNat_continuation (n k : Nat) : (continuation n k).toNat = n / 64 ^ k % 64 + 0x80 :=
  toNat_ofNat (by omega)

/-! ## the bytes behind the first one -/

theorem Unfinished.Toward.next? (h : p.Toward n) (hmissing : p.missing = k + 1) :
    ∃ q, p.next? (continuation n k) = some q ∧ q.missing = k ∧ q.Toward n := by
  have hbits : p.bits = n / 64 ^ k / 64 := by
    rw [h.bits, hmissing, Nat.pow_succ, Nat.div_div_eq_div_mul]
  rw [Unfinished.next?, toNat_continuation, if_pos (h.inRange k hmissing), hmissing]
  refine ⟨_, rfl, rfl, ?_, fun k _ => ?_⟩
  · show p.bits * 64 + (n / 64 ^ k % 64 + 0x80 - 0x80) = n / 64 ^ k
    omega
  · show 0x80 ≤ n / 64 ^ k % 64 + 0x80 ∧ n / 64 ^ k % 64 + 0x80 ≤ 0xBF
    omega

theorem decodeFrom_cons {position : Nat} {pending : Option Unfinished} {byte : UInt8}
    (h : step position pending byte = .ok p) (rest : List UInt8) :
    decodeFrom position pending (byte :: rest) =
      if p.missing = 0 then (Char.ofNat p.bits :: ·) <$> decodeFrom (position + 1) none rest
      else decodeFrom (position + 1) (some p) rest := by
  rw [decodeFrom, h]
  rfl

/-- behind a byte that leads toward `n`, the bytes it asks for make the character complete -/
theorem decodeFrom_of_step (hrest : ∀ position, decodeFrom position none rest = .ok text)
    {position : Nat} {pending : Option Unfinished} {byte : UInt8}
    (hstep : step position pending byte = .ok p) (h : p.Toward n) :
    decodeFrom position pending (byte :: continuations n p.missing ++ rest) =
      .ok (Char.ofNat n :: text) := by
  rw [List.cons_append, decodeFrom_cons hstep]
  induction hmissing : p.missing generalizing p position pending byte with
  | zero =>
    rw [if_pos rfl, continuations, List.nil_append, hrest, h.bits, hmissing, Nat.pow_zero,
      Nat.div_one]
    rfl
  | succ k ih =>
    obtain ⟨q, hnext, hq, htoward⟩ := h.next? hmissing
    have hstep' : step (position + 1) (some p) (continuation n k) = .ok q := by rw [step, hnext]
    rw [if_neg (Nat.succ_ne_zero k), continuations, List.cons_append, decodeFrom_cons hstep', hq]
    exact ih hstep' htoward hq

/-! ## the first byte -/

/-- a first byte that leads toward `n`, with as many bytes behind it as it asks for -/
def Begins (n : Nat) (bytes : List UInt8) : Prop :=
  ∃ byte p, lead? byte = some p ∧ p.Toward n ∧ bytes = byte :: continuations n p.missing

theorem begins_of_lead? {byte : UInt8} (hlead : lead? byte = some p) (hmissing : p.missing = k + 1)
    (hbits : p.bits = n / 64 ^ (k + 1))
    (hrange : p.least ≤ n / 64 ^ k % 64 + 0x80 ∧ n / 64 ^ k % 64 + 0x80 ≤ p.greatest) :
    Begins n (byte :: continuations n (k + 1)) := by
  refine ⟨byte, p, hlead, ⟨hmissing ▸ hbits, fun k' hk' => ?_⟩, hmissing ▸ rfl⟩
  obtain rfl : k = k' := Nat.succ.inj (hmissing.symm.trans hk')
  exact hrange

theorem begins_one (h : n ≤ 0x7F) : Begins n [UInt8.ofNat n] := by
  have hlead : lead? (UInt8.ofNat n) = some ⟨0, n, 0, 0, UInt8.ofNat n, 1⟩ := by
    rw [lead?, toNat_ofNat (by omega), if_pos (by omega)]
  refine ⟨_, _, hlead, ⟨(Nat.div_one n).symm, fun k hk => ?_⟩, rfl⟩
  exact absurd hk (Nat.succ_ne_zero k).symm

theorem begins_two (h : ¬n ≤ 0x7F) (h' : n ≤ 0x7FF) :
    Begins n (UInt8.ofNat (n / 64 % 0x20 + 0xC0) :: continuations n 1) := by
  generalize hb : n / 64 % 0x20 + 0xC0 = b
  have hlead : lead? (UInt8.ofNat b) = some ⟨1, b - 0xC0, 0x80, 0xBF, UInt8.ofNat b, 1⟩ := by
    rw [lead?, toNat_ofNat (by omega), if_neg (by omega), if_neg (by omega), if_pos (by omega)]
  refine begins_of_lead? hlead rfl ?_ ?_
  · show b - 0xC0 = n / 64
    omega
  · dsimp only
    omega

/-- the range of the second byte leaves out long forms and surrogates -/
theorem begins_three (h : ¬n ≤ 0x7FF) (h' : n ≤ 0xFFFF) (hvalid : n.isValidChar) :
    Begins n (UInt8.ofNat (n / 4096 % 0x10 + 0xE0) :: continuations n 2) := by
  have hsurrogate : n < 0xD800 ∨ 0xDFFF < n := hvalid.imp_right And.left
  generalize hb : n / 4096 % 0x10 + 0xE0 = b
  have hlead : lead? (UInt8.ofNat b) = some ⟨2, b - 0xE0, if b = 0xE0 then 0xA0 else 0x80,
      if b = 0xED then 0x9F else 0xBF, UInt8.ofNat b, 1⟩ := by
    rw [lead?, toNat_ofNat (by omega), if_neg (by omega), if_neg (by omega), if_neg (by omega),
      if_pos (by omega)]
  refine begins_of_lead? hlead rfl ?_ ?_
  · show b - 0xE0 = n / 4096
    omega
  · dsimp only
    split <;> split <;> omega

/-- the range of the second byte leaves out long forms and what lies beyond the code points -/
theorem begins_four (h : ¬n ≤ 0xFFFF) (hvalid : n.isValidChar) :
    Begins n (UInt8.ofNat (n / 262144 % 0x08 + 0xF0) :: continuations n 3) := by
  have hlast : n < 0x110000 := by rcases hvalid with hvalid | hvalid <;> omega
  generalize hb : n / 262144 % 0x08 + 0xF0 = b
  have hlead : lead? (UInt8.ofNat b) = some ⟨3, b - 0xF0, if b = 0xF0 then 0x90 else 0x80,
      if b = 0xF4 then 0x8F else 0xBF, UInt8.ofNat b, 1⟩ := by
    rw [lead?, toNat_ofNat (by omega), if_neg (by omega), if_neg (by omega), if_neg (by omega),
      if_neg (by omega), if_pos (by omega)]
  refine begins_of_lead? hlead rfl ?_ ?_
  · show b - 0xF0 = n / 262144
    omega
  · dsimp only
    split <;> split <;> omega

theorem begins_utf8EncodeChar (c : Char) : Begins c.val.toNat (String.utf8EncodeChar c) := by
  generalize hn : c.val.toNat = n
  have hvalid : n.isValidChar := hn ▸ c.valid
  have hlast : continuation n 0 = UInt8.ofNat (n % 64 + 0x80) := by
    rw [continuation, Nat.pow_zero, Nat.div_one]
  rw [String.utf8EncodeChar, hn, ← hlast]
  split
  · exact begins_one ‹_›
  split
  · exact begins_two ‹_› ‹_›
  split
  · exact begins_three ‹_› ‹_› hvalid
  · exact begins_four ‹_› hvalid

/-! ## texts -/

theorem decodeFrom_utf8EncodeChar (c : Char)
    (hrest : ∀ position, decodeFrom position none rest = .ok text) (position : Nat) :
    decodeFrom position none (String.utf8EncodeChar c ++ rest) = .ok (c :: text) := by
  obtain ⟨byte, p, hlead, h, hbytes⟩ := begins_utf8EncodeChar c
  have hstep : step position none byte = .ok p := by rw [step, hlead]
  have hchar : Char.ofNat c.val.toNat = c := Char.ofNat_toNat c
  rw [hbytes, decodeFrom_of_step hrest hstep h, hchar]

theorem decodeFrom_flatMap_utf8EncodeChar (text : List Char) (position : Nat) :
    decodeFrom position none (text.flatMap String.utf8EncodeChar) = .ok text := by
  induction text generalizing position with
  | nil => rfl
  | cons c text ih =>
    rw [List.flatMap_cons]
    exact decodeFrom_utf8EncodeChar c ih position

theorem decode_toUTF8 (s : String) : decode s.toUTF8.data.toList = .ok s.toList := by
  have hbytes : s.toUTF8 = s.toList.utf8Encode := s.utf8Encode_toList.symm
  rw [hbytes, List.utf8Encode, List.toList_data_toByteArray]
  exact decodeFrom_flatMap_utf8EncodeChar s.toList 0

end AnnotatedScheme.Utf8
