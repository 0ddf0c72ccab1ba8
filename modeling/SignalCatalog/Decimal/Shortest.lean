import SignalCatalog.Decimal.Binary64
/-!
# The fewest digits that read back

`Decimal.shortest tie x` is the decimal with the fewest digits among those that round to the finite double `x`; of two
with equally few digits the nearer one, and on an exact tie the one that `tie` names.  It tests, for one digit, two
digits and so on, the two neighbours of the value on that decimal grid against the interval of reals that round to `x`,
in exact integers.
-/
namespace SignalCatalog

/-- A positive decimal `0.d₁d₂… · 10 ^ point`, its digits written as one integer. -/
structure Decimal where
  digits : Nat
  point : Int
  deriving DecidableEq, Repr, Inhabited

namespace Decimal

/-- **Which neighbour an exact half goes to**: the one with an even last digit, or the upper one. -/
inductive Tie where
  | toEven
  | up
  deriving DecidableEq, Repr

/-- Whether an exact half between `d` and `d + 1` goes to `d`. -/
def Tie.keeps : Tie → (d : Nat) → Bool
  | toEven, d => d % 2 == 0
  | up, _ => false

def digitCount (n : Nat) : Nat := (Nat.toDigits 10 n).length

/-- The least `k` with `num / den < 10 ^ k`. -/
def pointOf (num den : Nat) : Int :=
  if den ≤ num then digitCount (num / den) else 1 - (digitCount ((den - 1) / num) : Int)

/-- **The reals that round to one double**, in units of a common denominator: the value, the two ends of its interval,
and whether the ends belong to it. -/
structure Interval where
  value : Nat
  low : Nat
  high : Nat
  den : Nat
  closed : Bool

/-- A power of two has its lower neighbour at half the usual distance. -/
def Interval.of (x : Binary64) : Interval :=
  let m := x.significand
  let gap := if m = Nat.pow 2 52 ∧ -1074 < x.exponent then 1 else 2
  let q := x.exponent - 2
  let up := Nat.pow 2 q.toNat
  { value := 4 * m * up, low := (4 * m - gap) * up, high := (4 * m + 2) * up, den := Nat.pow 2 (-q).toNat
    closed := m % 2 == 0 }

/-- Whether `num / den`, scaled to the interval's own denominator, lies in the interval. -/
def Interval.holds (i : Interval) (num den : Nat) : Bool :=
  if i.closed then decide (i.low * den ≤ num * i.den) && decide (num * i.den ≤ i.high * den)
  else decide (i.low * den < num * i.den) && decide (num * i.den < i.high * den)

/-- The better of the two neighbours of the value on the grid with `n` digits, if one lies in the interval. -/
def Interval.onGrid? (i : Interval) (tie : Tie) (point : Int) (n : Nat) : Option Nat :=
  let step := point - n
  -- a grid point is `d · up / down`
  let up := Nat.pow 10 step.toNat
  let down := Nat.pow 10 (-step).toNat
  let d := i.value * down / (i.den * up)
  let below := i.holds (d * up) down
  let above := i.holds ((d + 1) * up) down
  -- twice the value against the sum of the two neighbours
  let lhs := 2 * i.value * down
  let rhs := (2 * d + 1) * up * i.den
  if below && (!above || decide (lhs < rhs) || (decide (lhs = rhs) && tie.keeps d)) then some d
  else if above then some (d + 1)
  else none

/-- The first grid with a hit, from `n` digits on, `left` grids at most. -/
def Interval.search (i : Interval) (tie : Tie) (point : Int) : (left n : Nat) → Decimal
  | 0, n => { digits := i.value * Nat.pow 10 (n - point).toNat / (i.den * Nat.pow 10 (point - n).toNat), point }
  | left + 1, n =>
    match i.onGrid? tie point n with
    | some d => if d = Nat.pow 10 n then { digits := 1, point := point + 1 } else { digits := d, point }
    | none => i.search tie point left (n + 1)

/-- **The shortest decimal that reads back as the finite, non-zero double `x`**, its sign left out. -/
def shortest (tie : Tie) (x : Binary64) : Decimal :=
  let i := Interval.of x
  i.search tie (pointOf i.value i.den) 17 1

end Decimal
end SignalCatalog
