/-!
# SHA-1

The hash that names of nodes are turned into identifiers with: the message is padded to blocks of sixteen words, and
eighty rounds on five words are run for each.
-/
namespace SignalCatalog
namespace Sha1

/-- Five words of state. -/
structure State where
  a : UInt32
  b : UInt32
  c : UInt32
  d : UInt32
  e : UInt32
  deriving DecidableEq, Repr

def State.start : State := ⟨0x67452301, 0xEFCDAB89, 0x98BADCFE, 0x10325476, 0xC3D2E1F0⟩

def State.plus (s t : State) : State := ⟨s.a + t.a, s.b + t.b, s.c + t.c, s.d + t.d, s.e + t.e⟩

def rotateLeft (x : UInt32) (n : UInt32) : UInt32 := (x <<< n) ||| (x >>> (32 - n))

/-- A number in `count` bytes, high byte first. -/
def bigEndian : (count n : Nat) → List UInt8
  | 0, _ => []
  | count + 1, n => bigEndian count (n / 256) ++ [n.toUInt8]

/-- **The padded message**: a one bit, zeros, and the length in bits. -/
def pad (message : List UInt8) : List UInt8 :=
  let zeros := (119 - message.length % 64) % 64
  message ++ [0x80] ++ List.replicate zeros 0 ++ bigEndian 8 (8 * message.length)

def word (bytes : List UInt8) : UInt32 := bytes.foldl (fun w x => (w <<< 8) ||| x.toUInt32) 0

/-- A list cut into pieces of `n`, `count` of them. -/
def pieces {α : Type} (n : Nat) : (count : Nat) → List α → List (List α)
  | 0, _ => []
  | count + 1, l => l.take n :: pieces n count (l.drop n)

/-- `count` further words, each from four of the sixteen before it; words are kept last first. -/
def extend : (count : Nat) → List UInt32 → List UInt32
  | 0, ws => ws
  | count + 1, ws =>
    let back (i : Nat) := ws.getD (i - 1) 0
    extend count (rotateLeft (back 3 ^^^ back 8 ^^^ back 14 ^^^ back 16) 1 :: ws)

def mix (round : Nat) (b c d : UInt32) : UInt32 :=
  if round < 20 then ((b &&& c) ||| ((~~~b) &&& d)) + 0x5A827999
  else if round < 40 then (b ^^^ c ^^^ d) + 0x6ED9EBA1
  else if round < 60 then ((b &&& c) ||| (b &&& d) ||| (c &&& d)) + 0x8F1BBCDC
  else (b ^^^ c ^^^ d) + 0xCA62C1D6

def rounds (round : Nat) (s : State) : List UInt32 → State
  | [] => s
  | w :: ws =>
    let a := rotateLeft s.a 5 + mix round s.b s.c s.d + s.e + w
    rounds (round + 1) ⟨a, s.a, rotateLeft s.b 30, s.c, s.d⟩ ws

def block (s : State) (bytes : List UInt8) : State :=
  let ws := (pieces 4 16 bytes).map word
  s.plus (rounds 0 s (extend 64 ws.reverse).reverse)

/-- **The hash of a message**, twenty bytes. -/
def hash (message : List UInt8) : List UInt8 :=
  let padded := pad message
  let s := (pieces 64 (padded.length / 64) padded).foldl block .start
  [s.a, s.b, s.c, s.d, s.e].flatMap fun w => bigEndian 4 w.toNat

end Sha1
end SignalCatalog
