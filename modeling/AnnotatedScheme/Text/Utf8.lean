import AnnotatedScheme.Text.Hexadecimal

/-!
# UTF-8

`Utf8.decode` makes characters of bytes. It knows the shortest form of each code point only, and no
surrogates. Where the bytes break off, `Utf8.Fault` tells which bytes are at fault, and why:

* a byte that begins no character;
* a character that is cut short by a byte that does not continue it;
* a character that is cut short by the end.
-/

namespace AnnotatedScheme.Utf8

inductive Reason
  | start
  | continuation
  | ending
  deriving DecidableEq

def Reason.message : Reason → String
  | .start => "invalid start byte"
  | .continuation => "invalid continuation byte"
  | .ending => "unexpected end of data"

/-- as many bytes as `count` says from a position on, the first of which is given -/
structure Fault where
  position : Nat
  count : Nat
  byte : UInt8
  reason : Reason
  deriving DecidableEq

def Fault.message (fault : Fault) : String :=
  let place :=
    if fault.count = 1 then
      "byte 0x" ++ String.ofList (hexadecimal 2 fault.byte.toNat) ++
        " in position " ++ toString fault.position
    else
      "bytes in position " ++ toString fault.position ++ "-" ++
        toString (fault.position + fault.count - 1)
  "'utf-8' codec can't decode " ++ place ++ ": " ++ fault.reason.message

/-! ## decoding -/

/-- a character of which some bytes have been read: how many are to come, the bits so far, and the
least and greatest byte that may come next -/
structure Unfinished where
  missing : Nat
  bits : Nat
  least : Nat
  greatest : Nat
  first : UInt8
  count : Nat
  deriving DecidableEq

/-- what a first byte says of its character; the range of the second byte leaves out long forms,
surrogates and what lies beyond the last code point -/
def lead? (byte : UInt8) : Option Unfinished :=
  let b := byte.toNat
  if b < 0x80 then some ⟨0, b, 0, 0, byte, 1⟩
  else if b < 0xC2 then none
  else if b < 0xE0 then some ⟨1, b - 0xC0, 0x80, 0xBF, byte, 1⟩
  else if b < 0xF0 then
    some ⟨2, b - 0xE0, if b = 0xE0 then 0xA0 else 0x80, if b = 0xED then 0x9F else 0xBF, byte, 1⟩
  else if b < 0xF5 then
    some ⟨3, b - 0xF0, if b = 0xF0 then 0x90 else 0x80, if b = 0xF4 then 0x8F else 0xBF, byte, 1⟩
  else none

/-- the character with one more byte, if that byte continues it -/
def Unfinished.next? (p : Unfinished) (byte : UInt8) : Option Unfinished :=
  if p.least ≤ byte.toNat ∧ byte.toNat ≤ p.greatest then
    some ⟨p.missing - 1, p.bits * 64 + (byte.toNat - 0x80), 0x80, 0xBF, p.first, p.count + 1⟩
  else none

/-- the fault of a character that is cut short at a position -/
def Unfinished.fault (p : Unfinished) (position : Nat) (reason : Reason) : Fault :=
  ⟨position - p.count, p.count, p.first, reason⟩

/-- the character that a byte begins, or continues if one is pending -/
def step (position : Nat) (pending : Option Unfinished) (byte : UInt8) : Except Fault Unfinished :=
  match pending with
  | none =>
    match lead? byte with
    | some p => .ok p
    | none => .error ⟨position, 1, byte, .start⟩
  | some p =>
    match p.next? byte with
    | some p => .ok p
    | none => .error (p.fault position .continuation)

def decodeFrom (position : Nat) (pending : Option Unfinished) :
    List UInt8 → Except Fault (List Char)
  | [] =>
    match pending with
    | none => .ok []
    | some p => .error (p.fault position .ending)
  | byte :: rest => do
    let p ← step position pending byte
    if p.missing = 0 then return Char.ofNat p.bits :: (← decodeFrom (position + 1) none rest)
    else decodeFrom (position + 1) (some p) rest

def decode (bytes : List UInt8) : Except Fault (List Char) := decodeFrom 0 none bytes

end AnnotatedScheme.Utf8
