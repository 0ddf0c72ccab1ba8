import SignalCatalog.Text.Quoted
/-!
# Templates of instance names

A template is text with groups in brackets.  A group is a range of integers, `[1,4]`, or a list of words,
`[Left,Right]`; the template stands for every text got by choosing one member of each group, the leftmost group varying
slowest.  A template with a fault anywhere stands for nothing, and the error names the whole of it.
-/
namespace SignalCatalog

/-- Why a template names nothing. -/
inductive Template.Fault where
  | strayClosing
  | unterminated
  | nested
  | emptyRange (first last : Int)
  | emptyEntry
  /-- A level that yields no name at all. -/
  | noNames
  deriving DecidableEq, Repr

def Template.Fault.reason : Template.Fault → String
  | strayClosing => "unbalanced ']'"
  | unterminated => "unterminated '['"
  | nested => "nested brackets"
  | emptyRange first last => "range start " ++ toString first ++ " is greater than end " ++ toString last
  | emptyEntry => "empty list entry"
  | noNames => "instance level yields no names"

/-- A template or a level that names nothing, and why. -/
structure InvalidEntry where
  entry : String
  fault : Template.Fault
  deriving DecidableEq, Repr

namespace Template

def isRangeBlank (c : Char) : Bool := c == ' ' || c == '\t'

def trimRange (cs : List Char) : List Char := ((cs.dropWhile isRangeBlank).reverse.dropWhile isRangeBlank).reverse

/-- **A bound of a range**: decimal digits after an optional minus, within sixty-four bits. -/
def bound? (cs : List Char) : Option Int :=
  let (negative, digits) :=
    match trimRange cs with
    | '-' :: r => (true, r)
    | r => (false, r)
  if digits.isEmpty || !digits.all Char.isDigit then none
  else
    let magnitude : Nat := digits.foldl (fun acc c => 10 * acc + (c.toNat - '0'.toNat)) 0
    let n : Int := if negative then -(magnitude : Int) else magnitude
    if -(Nat.pow 2 63 : Int) ≤ n ∧ n < Nat.pow 2 63 then some n else none

def range? (group : List Char) : Option (Int × Int) :=
  match Text.splitOn ',' group with
  | [first, last] => do return (← bound? first, ← bound? last)
  | _ => none

/-- The integers from `first` on, `count` of them. -/
def integersFrom (first : Int) : (count : Nat) → List Int
  | 0 => []
  | count + 1 => first :: integersFrom (first + 1) count

/-- One pair of equal quotes around a word is taken off. -/
def unquote (word : List Char) : List Char :=
  match word with
  | q :: r => if (q = '\'' ∨ q = '"') ∧ r.getLast? = some q then r.dropLast else word
  | [] => []

def word (entry : List Char) : Except Fault (List Char) :=
  let w := unquote (Text.trim entry)
  if w.isEmpty then .error .emptyEntry else .ok w

/-- **The members of a group.** -/
def members (group : List Char) : Except Fault (List (List Char)) :=
  match range? group with
  | some (first, last) =>
    if last < first then .error (.emptyRange first last)
    else .ok ((integersFrom first (last - first + 1).toNat).map fun n => (toString n).toList)
  | none => (Text.splitOn ',' group).mapM word

def hasClosing (cs : List Char) : Bool := cs.contains ']'

def invalid (cs : List Char) (fault : Fault) : InvalidEntry := { entry := String.ofList cs, fault }

/-- **All names of a template**, leftmost group slowest.  What is wrong behind the first group is wrong with the
template. -/
def expandChars (cs : List Char) : Except InvalidEntry (List (List Char)) :=
  if !cs.contains '[' then (if hasClosing cs then .error (invalid cs .strayClosing) else .ok [cs])
  else
    let lead := cs.takeWhile (· != '[')
    let behind := (cs.dropWhile (· != '[')).drop 1
    let group := behind.takeWhile (· != ']')
    match _h : behind.dropWhile (· != ']') with
    | [] => .error (invalid cs .unterminated)
    | _ :: rest =>
      if hasClosing lead then .error (invalid cs .strayClosing)
      else if group.contains '[' then .error (invalid cs .nested)
      else do
        let ms ← (members group).mapError (invalid cs)
        let tails ← (expandChars rest).mapError fun e => invalid cs e.fault
        return ms.flatMap fun m => tails.map fun t => lead ++ m ++ t
termination_by cs.length
decreasing_by
  have h₁ : (behind.dropWhile (· != ']')).length ≤ behind.length := (List.dropWhile_sublist _).length_le
  have h₂ : behind.length ≤ (cs.dropWhile (· != '[')).length := by simp [behind]
  have h₃ : (cs.dropWhile (· != '[')).length ≤ cs.length := (List.dropWhile_sublist _).length_le
  rw [_h] at h₁
  simp only [List.length_cons] at h₁
  omega

def expand (template : String) : Except InvalidEntry (List String) :=
  (expandChars template.toList).map fun names => names.map String.ofList

end Template
end SignalCatalog
