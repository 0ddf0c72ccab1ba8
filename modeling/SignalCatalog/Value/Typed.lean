import SignalCatalog.Text.Quoted
import SignalCatalog.Value.Mapping
/-!
# Values read at a type

A declared field has a type: a string, a boolean, a count, a number, a list or any value.  Reading a value at its type
looks through tags, except that a number must not be tagged and that a field of any value keeps them, and fails with a
`Mismatch` that names what was found and what was expected.
-/
namespace SignalCatalog

/-- **Why a value is not of the type it is read at**, or a record not of its shape. -/
inductive Mismatch where
  | wrongType (found expected : String)
  | wrongValue (found expected : String)
  | missingField (name : String)
  | unknownField (name : String) (known : List String)
  | duplicateField (name : String)
  | repeatedKey
  deriving DecidableEq, Repr

namespace Mismatch

def tick (s : String) : String := "\x60" ++ s ++ "\x60"

def message : Mismatch → String
  | wrongType found expected => "invalid type: " ++ found ++ ", expected " ++ expected
  | wrongValue found expected => "invalid value: " ++ found ++ ", expected " ++ expected
  | missingField name => "missing field " ++ tick name
  | unknownField name known =>
    "unknown field " ++ tick name ++ ", expected one of " ++ ", ".intercalate (known.map tick)
  | duplicateField name => "duplicate field " ++ tick name
  | repeatedKey => "duplicate entry in YAML map"

end Mismatch

namespace Number

def found : Number → String
  | int n => "integer " ++ Mismatch.tick (toString n)
  | float x => "floating point " ++ Mismatch.tick (Decimal.Layout.message.write x)

end Number

namespace Value

/-- **A value as a mismatch names it**, tags looked through. -/
def found (v : Value) : String :=
  match v.untagged with
  | .null => "unit value"
  | .bool b => "boolean " ++ Mismatch.tick (if b then "true" else "false")
  | .number n => n.found
  | .string s => "string " ++ Text.quoted s
  | .list _ => "sequence"
  | .mapping _ => "map"
  | .tagged _ _ => "enum"

def readString (v : Value) : Except Mismatch String :=
  match v.untagged with
  | .string s => .ok s
  | _ => .error (.wrongType v.found "a string")

def readBool (v : Value) : Except Mismatch Bool :=
  match v.untagged with
  | .bool b => .ok b
  | _ => .error (.wrongType v.found "a boolean")

def readCount (v : Value) : Except Mismatch Nat :=
  match v.untagged with
  | .number (.int n) => if 0 ≤ n then .ok n.toNat else .error (.wrongValue (Number.int n).found "u64")
  | _ => .error (.wrongType v.found "u64")

def readNumber : Value → Except Mismatch Number
  | .number n => .ok n
  | .tagged _ _ => .error (.wrongType "enum" "a number")
  | v => .error (.wrongType v.found "a number")

def readList (v : Value) : Except Mismatch (List Value) :=
  match v.untagged with
  | .list items => .ok items
  | .null => .ok []
  | _ => .error (.wrongType v.found "a sequence")

/-- A list of strings; its first bad element is the failure. -/
def readStrings (v : Value) : Except Mismatch (List String) := do
  (← v.readList).mapM readString

/-! ## Any value -/

mutual
/-- A value with each of its tags read again from its name. -/
def reread : Value → Value
  | .list items => .list (rereadItems items)
  | .mapping entries => .mapping (rereadEntries entries)
  | .tagged tag v => .tagged tag.reread (reread v)
  | v => v
termination_by structural v => v

def rereadItems : List Value → List Value
  | [] => []
  | v :: r => reread v :: rereadItems r
termination_by structural l => l

def rereadEntries : List (Value × Value) → List (Value × Value)
  | [] => []
  | (k, v) :: r => (reread k, reread v) :: rereadEntries r
termination_by structural l => l
end

mutual
def repeatsKey : Value → Bool
  | .list items => repeatsKeyItems items
  | .mapping entries => repeatsKeyEntries entries
  | .tagged _ v => repeatsKey v
  | _ => false
termination_by structural v => v

def repeatsKeyItems : List Value → Bool
  | [] => false
  | v :: r => repeatsKey v || repeatsKeyItems r
termination_by structural l => l

def repeatsKeyEntries : List (Value × Value) → Bool
  | [] => false
  | (k, v) :: r => Mapping.contains r k || repeatsKey k || repeatsKey v || repeatsKeyEntries r
termination_by structural l => l
end

/-- **Any value.**  Its tags are read again, and two keys that this makes one are a mismatch. -/
def readValue (v : Value) : Except Mismatch Value :=
  if v.reread.repeatsKey then .error .repeatedKey else .ok v.reread

def readValues (v : Value) : Except Mismatch (List Value) := do
  (← v.readList).mapM readValue

end Value
end SignalCatalog
