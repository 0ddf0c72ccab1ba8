import SignalCatalog.Decimal.Binary64
/-!
# Reading decimal text

An optional sign, digits with at most one point among them, and an optional exponent: `5`, `1.`, `.5`, `-2.5e-3`.  At
least one digit stands before the exponent and at least one in it.
-/
namespace SignalCatalog
namespace Decimal

def digitValue (c : Char) : Nat := c.toNat - '0'.toNat

/-- The integer written by decimal digits, continuing `acc`. -/
def natOfDigits (acc : Nat) (cs : List Char) : Nat := cs.foldl (fun n c => 10 * n + digitValue c) acc

/-- A sign, if one stands first, and what follows it. -/
def splitSign : List Char → Bool × List Char
  | '-' :: r => (true, r)
  | '+' :: r => (false, r)
  | r => (false, r)

/-- The exponent part: nothing, or `e` with an optionally signed integer that ends the text. -/
def readExponent? : List Char → Option Int
  | [] => some 0
  | c :: r =>
    if c = 'e' ∨ c = 'E' then
      let (negative, ds) := splitSign r
      if ds.isEmpty || !ds.all Char.isDigit then none
      else if negative then some (-(natOfDigits 0 ds : Int)) else some (natOfDigits 0 ds)
    else none

/-- **The double nearest to a decimal text**, `none` when the text is no decimal.  A large exponent may give
infinity. -/
def read? (cs : List Char) : Option Binary64 :=
  let (negative, body) := splitSign cs
  let whole := body.takeWhile Char.isDigit
  let afterWhole := body.dropWhile Char.isDigit
  let (fraction, rest) :=
    match afterWhole with
    | '.' :: r => (r.takeWhile Char.isDigit, r.dropWhile Char.isDigit)
    | r => ([], r)
  if whole.isEmpty && fraction.isEmpty then none
  else
    (readExponent? rest).map fun e =>
      Binary64.ofDecimal negative (natOfDigits (natOfDigits 0 whole) fraction) (e - fraction.length)

end Decimal
end SignalCatalog
