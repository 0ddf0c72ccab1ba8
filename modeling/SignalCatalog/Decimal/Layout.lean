import SignalCatalog.Decimal.Shortest
/-!
# How a double is laid out

The digits of a double are chosen by `Decimal.shortest`; a `Layout` decides how they are written.  The catalogue writes
doubles in three places, each with a record of its own: as a YAML scalar, as a JSON number and inside a message.
-/
namespace SignalCatalog
namespace Decimal

/-- **What one output decides about a double**: where an exact half goes, the decimal points written positionally, how a
positive exponent begins, and the texts of the values that have no digits. -/
structure Layout where
  tie : Tie
  /-- Whether a value `0.d₁d₂… · 10 ^ point` is written without an exponent. -/
  positional : Int → Bool
  /-- What stands before a positive exponent. -/
  plus : String
  nan : String
  infinity : String
  negInfinity : String

/-- `1.0`, `0.00001`, `1e16`, `1e-6`. -/
def Layout.yaml : Layout :=
  { tie := .toEven, positional := fun k => decide (-5 < k) && decide (k ≤ 16), plus := "",
    nan := ".nan", infinity := ".inf"
    negInfinity := "-.inf" }

/-- As in YAML, but with a sign before a positive exponent; JSON has no word for the other values. -/
def Layout.json : Layout :=
  { tie := .toEven, positional := fun k => decide (-5 < k) && decide (k ≤ 16), plus := "+", nan := "null"
    infinity := "null", negInfinity := "null" }

/-- Messages never use an exponent, and a half goes up. -/
def Layout.message : Layout :=
  { tie := .up, positional := fun _ => true, plus := "", nan := "NaN", infinity := "inf", negInfinity := "-inf" }

def zeros (n : Int) : String := String.ofList (List.replicate n.toNat '0')

/-- The digits with the point put where it belongs; a whole number keeps `.0`. -/
def positionalText (d : Decimal) : String :=
  let digits := (Nat.toDigits 10 d.digits)
  let n : Int := digits.length
  if d.point ≤ 0 then "0." ++ zeros (-d.point) ++ String.ofList digits
  else if n ≤ d.point then String.ofList digits ++ zeros (d.point - n) ++ ".0"
  else String.ofList (digits.take d.point.toNat) ++ "." ++ String.ofList (digits.drop d.point.toNat)

/-- One digit before the point, which is left out when no digit follows it. -/
def exponentText (plus : String) (d : Decimal) : String :=
  let digits := Nat.toDigits 10 d.digits
  let rest := digits.drop 1
  let mantissa := String.ofList (digits.take 1) ++ (if rest.isEmpty then "" else "." ++ String.ofList rest)
  let e := d.point - 1
  mantissa ++ "e" ++ (if 0 ≤ e then plus else "-") ++ toString e.natAbs

/-- **The text of a double** under a layout. -/
def Layout.write (l : Layout) (x : Binary64) : String :=
  if x.isNaN then l.nan
  else if !x.isFinite then (if x.isNegative then l.negInfinity else l.infinity)
  else
    let sign := if x.isNegative then "-" else ""
    if x.isZero then sign ++ "0.0"
    else
      let d := shortest l.tie x
      sign ++ (if l.positional d.point then positionalText d else exponentText l.plus d)

end Decimal
end SignalCatalog
