import SignalCatalog.Decimal.Read
import SignalCatalog.Value.Basic
/-!
# What a plain scalar means

A scalar without quotes stands for null, a boolean, an integer, a double or, when it is none of these, for its own text.
Integers have a sign and decimal digits or one of `0x`, `0o`, `0b`; a zero followed by further digits is text.
-/
namespace SignalCatalog
namespace Yaml

/-- **The meaning of a plain scalar.** -/
inductive Resolved where
  | null
  | bool (value : Bool)
  | number (value : Number)
  | text
  /-- An integer beyond sixty-four bits but within a hundred and twenty-eight. -/
  | tooLarge
  deriving Repr, DecidableEq

/-- The value of a digit in a base up to sixteen. -/
def digitIn? (radix : Nat) (c : Char) : Option Nat :=
  let d :=
    if c.isDigit then c.toNat - '0'.toNat
    else if 'a' ≤ c ∧ c ≤ 'f' then c.toNat - 'a'.toNat + 10
    else if 'A' ≤ c ∧ c ≤ 'F' then c.toNat - 'A'.toNat + 10
    else radix
  if d < radix then some d else none

def natIn? (radix : Nat) (cs : List Char) : Option Nat :=
  if cs.isEmpty then none
  else cs.foldl (fun acc c => acc.bind fun n => (digitIn? radix c).map (n * radix + ·)) (some 0)

def basedNat? : List Char → Option Nat
  | '0' :: 'x' :: r => natIn? 16 r
  | '0' :: 'o' :: r => natIn? 8 r
  | '0' :: 'b' :: r => natIn? 2 r
  | _ => none

/-- **A zero followed by further digits only**, a sign aside: text, not a number. -/
def isPaddedDigits (cs : List Char) : Bool :=
  match (Decimal.splitSign cs).2 with
  | '0' :: c :: r => (c :: r).all Char.isDigit
  | _ => false

def integer? (cs : List Char) : Option Int :=
  if isPaddedDigits cs then none
  else
    let (negative, body) := Decimal.splitSign cs
    let magnitude := (basedNat? body).orElse fun _ => natIn? 10 body
    magnitude.map fun n => if negative then -(n : Int) else n

/-- The double a plain scalar writes: a word for a special value, or a decimal that is not too large. -/
def double? (cs : List Char) : Option Binary64 :=
  let unsigned := match cs with
    | '+' :: r => r
    | r => r
  let doubleSign := match cs with
    | '+' :: '+' :: _ => true
    | '+' :: '-' :: _ => true
    | _ => false
  if doubleSign then none
  else if [".inf", ".Inf", ".INF"].contains (String.ofList unsigned) then some .infinity
  else if ["-.inf", "-.Inf", "-.INF"].contains (String.ofList cs) then some .negInfinity
  else if [".nan", ".NaN", ".NAN"].contains (String.ofList cs) then some .nan
  else (Decimal.read? unsigned).filter Binary64.isFinite

/-- **Resolution**: null, then booleans, then integers, then doubles. -/
def resolve (s : String) : Resolved :=
  if ["", "~", "null", "Null", "NULL"].contains s then .null
  else if ["true", "True", "TRUE"].contains s then .bool true
  else if ["false", "False", "FALSE"].contains s then .bool false
  else
    match integer? s.toList with
    | some n =>
      if -(Nat.pow 2 63 : Int) ≤ n ∧ n < Nat.pow 2 64 then .number (.int n)
      else if -(Nat.pow 2 127 : Int) ≤ n ∧ n < Nat.pow 2 128 then .tooLarge
      else
        match double? s.toList with
        | some x => .number (.float x)
        | none => .text
    | none =>
      if isPaddedDigits s.toList then .text
      else
        match double? s.toList with
        | some x => .number (.float x)
        | none => .text

end Yaml
end SignalCatalog
