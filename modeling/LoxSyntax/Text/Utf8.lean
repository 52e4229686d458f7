/-
# LoxSyntax.Text.Utf8 -- strict decoding of UTF-8, with the place and the reason of a fault

A sequence is a LEAD byte and up to three FOLLOWERS. The lead tells how many followers there are and,
to keep out overlong forms, surrogates and everything above `U+10FFFF`, between which bounds the first
of them lies; the others lie between `0x80` and `0xBF`.

Decoding stops at the first sequence that is not whole. The bad piece is the part of that sequence that
is still in order, and at least its first byte.
-/
namespace LoxSyntax.Text.Utf8

/-! ## One sequence -/

/-- Why a sequence cannot be decoded. -/
inductive Reason where
  /-- The byte leads no sequence. -/
  | invalidStart
  /-- The input ends before the sequence does. -/
  | unexpectedEnd
  /-- A byte in the sequence is out of its bounds. -/
  | invalidContinuation
  deriving DecidableEq

/-- What the first byte of a sequence tells about the rest of it. -/
structure Lead where
  /-- How many bytes follow. -/
  followers : Nat
  /-- The least byte that may follow first. -/
  least : Nat
  /-- The greatest byte that may follow first. -/
  greatest : Nat
  /-- The leading bits of the code point. -/
  bits : Nat

/-- Reads a first byte; `none` if no sequence starts with it. -/
def lead? (byte : Nat) : Option Lead :=
  if byte < 0x80 then some ⟨0, 0x80, 0xbf, byte⟩
  else if byte < 0xc2 then none
  else if byte < 0xe0 then some ⟨1, 0x80, 0xbf, byte - 0xc0⟩
  else if byte < 0xf0 then
    some ⟨2, if byte = 0xe0 then 0xa0 else 0x80, if byte = 0xed then 0x9f else 0xbf, byte - 0xe0⟩
  else if byte < 0xf5 then
    some ⟨3, if byte = 0xf0 then 0x90 else 0x80, if byte = 0xf4 then 0x8f else 0xbf, byte - 0xf0⟩
  else none

/-- Reads `count` followers, the first of them within bounds of its own, and adds six bits for each.
A fault comes with the number of followers that were in order. -/
def follow (least greatest bits : Nat) : Nat → List UInt8 → Except (Reason × Nat) Nat
  | 0, _ => .ok bits
  | _ + 1, [] => .error (.unexpectedEnd, 0)
  | count + 1, byte :: rest =>
    if least ≤ byte.toNat ∧ byte.toNat ≤ greatest then
      match follow 0x80 0xbf (64 * bits + byte.toNat % 64) count rest with
      | .ok code => .ok code
      | .error (reason, sound) => .error (reason, sound + 1)
    else .error (.invalidContinuation, 0)

/-- Reads the sequence that starts with `byte`: its code point and the number of its followers. -/
def sequence (byte : UInt8) (rest : List UInt8) : Except (Reason × Nat) (Nat × Nat) :=
  match lead? byte.toNat with
  | none => .error (.invalidStart, 0)
  | some lead =>
    match follow lead.least lead.greatest lead.bits lead.followers rest with
    | .ok code => .ok (code, lead.followers)
    | .error fault => .error fault

/-! ## A whole text -/

/-- The first sequence of an input that cannot be decoded. -/
structure Fault where
  /-- The first byte of the bad piece. -/
  byte : UInt8
  /-- How many bytes stand before the bad piece. -/
  position : Nat
  /-- How many bytes of the bad piece follow its first. -/
  more : Nat
  reason : Reason
  deriving DecidableEq

/-- Decodes an input of which `position` bytes have been read. -/
def decodeFrom (position : Nat) : List UInt8 → Except Fault (List Char)
  | [] => .ok []
  | byte :: rest =>
    match sequence byte rest with
    | .error (reason, more) => .error ⟨byte, position, more, reason⟩
    | .ok (code, followers) =>
      (decodeFrom (position + 1 + followers) (rest.drop followers)).map (Char.ofNat code :: ·)
termination_by bytes => bytes.length
decreasing_by simp only [List.length_cons, List.length_drop]; omega

/-- Decodes an input, or tells what is wrong with its first bad sequence. -/
def decode (bytes : List UInt8) : Except Fault (List Char) := decodeFrom 0 bytes

/-! ## The wording of a fault -/

def Reason.text : Reason → String
  | .invalidStart => "invalid start byte"
  | .unexpectedEnd => "unexpected end of data"
  | .invalidContinuation => "invalid continuation byte"

/-- A fault in words: the byte, if the bad piece is a single one, or the places of the first and the last
one. -/
def Fault.text (fault : Fault) : String :=
  "'utf-8' codec can't decode " ++
    (if fault.more = 0 then
      "byte 0x" ++ hexadecimal fault.byte.toNat ++ " in position " ++ toString fault.position
    else
      "bytes in position " ++ toString fault.position ++ "-" ++ toString (fault.position + fault.more)) ++
    ": " ++ fault.reason.text
where
  hexadecimal (n : Nat) : String := String.ofList (Nat.toDigits 16 n)

end LoxSyntax.Text.Utf8
