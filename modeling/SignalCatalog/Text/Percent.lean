import SignalCatalog.Text.Hex
/-!
# Percent-encoded text

A character that may not stand for itself is written as the bytes of its UTF-8 form, each as `%` and two hexadecimal
digits.  Reading takes the bytes in sequences as their leading byte tells; a sequence of the right shape that is the
form of no character is read as none.
-/
namespace SignalCatalog
namespace Text

namespace Percent

/-- **A text with every character encoded that is not to be kept.** -/
def encode (keep : Char → Bool) (cs : List Char) : List Char :=
  cs.flatMap fun c => if keep c then [c] else (String.utf8EncodeChar c).flatMap fun b => '%' :: hexDigits 2 b.toNat

/-- A sequence of bytes being read: the bits so far, how many bytes are still to come, and the least code point that
needs as many bytes. -/
structure Sequence where
  bits : Nat
  left : Nat
  least : Nat

namespace Sequence

def begin? (byte : Nat) : Option Sequence :=
  if byte < 0x80 then some { bits := byte, left := 0, least := 0 }
  else if byte / 32 = 6 then some { bits := byte % 32, left := 1, least := 0x80 }
  else if byte / 16 = 14 then some { bits := byte % 16, left := 2, least := 0x800 }
  else if byte / 8 = 30 then some { bits := byte % 8, left := 3, least := 0x10000 }
  else none

def push? (s : Sequence) (byte : Nat) : Option Sequence :=
  if byte / 64 = 2 then some { s with bits := 64 * s.bits + byte % 64, left := s.left - 1 } else none

def char? (s : Sequence) : Option Char :=
  if s.least ≤ s.bits ∧ s.bits.isValidChar then some (Char.ofNat s.bits) else none

end Sequence

/-- **A text with its encoded characters put back**, `none` standing for a sequence that is the form of no character;
`begun` is the sequence whose bytes are being read. -/
def decodeFrom (begun : Option Sequence) : List Char → Option (List (Option Char))
  | '%' :: a :: b :: r =>
    match hexValue? a, hexValue? b with
    | some high, some low =>
      let byte := 16 * high + low
      match (match begun with
        | none => Sequence.begin? byte
        | some s => s.push? byte) with
      | none => none
      | some s => if s.left = 0 then (decodeFrom none r).map (s.char? :: ·) else decodeFrom (some s) r
    | _, _ => none
  | c :: r => if c = '%' ∨ begun.isSome then none else (decodeFrom none r).map (some c :: ·)
  | [] => if begun.isSome then none else some []

def decode (cs : List Char) : Option (List (Option Char)) := decodeFrom none cs

end Percent
end Text
end SignalCatalog
