/-!
# Binary64: doubles as words

A double is kept as its 64-bit word, so equality of numbers is decidable and no runtime floating-point operation is
involved.  Reading rounds an exact ratio to the nearest double, ties to the even word; everything a printer needs is
the exact value `m · 2 ^ q` of a finite word.
-/
namespace SignalCatalog

/-- A double, by its 64-bit word. -/
structure Binary64 where
  bits : UInt64
  deriving DecidableEq, Repr, Inhabited

namespace Binary64

/-- The word of an integer below `2 ^ 64`. -/
def ofWord (n : Nat) : Binary64 := ⟨n.toUInt64⟩

def isNegative (x : Binary64) : Bool := decide (Nat.pow 2 63 ≤ x.bits.toNat)

def exponentField (x : Binary64) : Nat := x.bits.toNat / Nat.pow 2 52 % Nat.pow 2 11

def fractionField (x : Binary64) : Nat := x.bits.toNat % Nat.pow 2 52

def isFinite (x : Binary64) : Bool := x.exponentField != 2047
def isNaN (x : Binary64) : Bool := x.exponentField == 2047 && x.fractionField != 0
def isZero (x : Binary64) : Bool := x.exponentField == 0 && x.fractionField == 0

def infinity : Binary64 := ofWord 0x7FF0000000000000
def negInfinity : Binary64 := ofWord 0xFFF0000000000000
def nan : Binary64 := ofWord 0x7FF8000000000000

/-- **Same number**: the same word, or two zeros, or two not-a-numbers. -/
def same (x y : Binary64) : Bool := x == y || (x.isZero && y.isZero) || (x.isNaN && y.isNaN)

/-- The significand `m` of a finite word's value `m · 2 ^ q`. -/
def significand (x : Binary64) : Nat :=
  if x.exponentField = 0 then x.fractionField else Nat.pow 2 52 + x.fractionField

/-- The exponent `q` of a finite word's value `m · 2 ^ q`. -/
def exponent (x : Binary64) : Int :=
  if x.exponentField = 0 then -1074 else (x.exponentField : Int) - 1075

/-- The quotient nearest to `num / den`, a half going to the even neighbour. -/
def roundDiv (num den : Nat) : Nat :=
  let q := num / den
  let r := 2 * (num % den)
  if r < den ∨ (r = den ∧ q % 2 = 0) then q else q + 1

/-- The exponent at which `num / den` has a significand of fifty-three bits, or the least exponent there is. -/
def exponentOf (num den : Nat) : Int :=
  let e : Int := (num.log2 : Int) - den.log2 - 52
  let fits : Bool :=
    if 0 ≤ e + 52 then decide (den * Nat.pow 2 (e + 52).toNat ≤ num)
    else decide (den ≤ num * Nat.pow 2 (-(e + 52)).toNat)
  max (if fits then e else e - 1) (-1074)

/-- **The double nearest to `num / den`**, infinity when it is too large.  A significand that rounds up to
`2 ^ 53` carries into the exponent field, which is what the word of the next power of two is. -/
def ofRatio (negative : Bool) (num den : Nat) : Binary64 :=
  let e := exponentOf num den
  let m := if 0 ≤ e then roundDiv num (den * Nat.pow 2 e.toNat) else roundDiv (num * Nat.pow 2 (-e).toNat) den
  let word := if num = 0 then 0 else min ((e + 1074).toNat * Nat.pow 2 52 + m) 0x7FF0000000000000
  ofWord (if negative then Nat.pow 2 63 + word else word)

/-- **The double nearest to `digits · 10 ^ scale`.**  Beyond three hundred and thirty decimal places on either side the
answer is infinity or zero whatever the digits are. -/
def ofDecimal (negative : Bool) (digits : Nat) (scale : Int) : Binary64 :=
  let magnitude := scale + (Nat.toDigits 10 digits).length
  if digits = 0 ∨ magnitude < -330 then ofRatio negative 0 1
  else if 330 < magnitude then ofRatio negative (Nat.pow 10 330) 1
  else if 0 ≤ scale then ofRatio negative (digits * Nat.pow 10 scale.toNat) 1
  else ofRatio negative digits (Nat.pow 10 (-scale).toNat)

end Binary64
end SignalCatalog
