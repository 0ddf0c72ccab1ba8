import SignalCatalog.Decimal.Layout
import SignalCatalog.Value.Tag
/-!
# Values

A catalogue file holds values: null, booleans, numbers, strings, lists, mappings and tagged values.  `Value.same` is
their equality: mappings are compared without regard to order, integers and doubles are never equal, all not-a-numbers
are equal and so are the two zeros.
-/
namespace SignalCatalog

/-- A number is an integer, from `-2 ^ 63` to `2 ^ 64 - 1` in every file that can be read, or a double. -/
inductive Number where
  | int (value : Int)
  | float (value : Binary64)
  deriving DecidableEq, Repr, Inhabited

namespace Number

def same : Number → Number → Bool
  | int a, int b => a == b
  | float a, float b => a.same b
  | _, _ => false

/-- A number as a message or a YAML scalar shows it. -/
def text : Number → String
  | int n => toString n
  | float x => Decimal.Layout.yaml.write x

end Number

inductive Value where
  | null
  | bool (value : Bool)
  | number (value : Number)
  | string (value : String)
  | list (items : List Value)
  | mapping (entries : List (Value × Value))
  | tagged (tag : Tag) (value : Value)
  deriving Repr, Inhabited

/-- **Ordered pairs of key and value.**  Every mapping the library builds has each key once, up to `Value.same`. -/
abbrev Mapping := List (Value × Value)

namespace Value

mutual
/-- **Equality of values**, blind to the order of a mapping's entries. -/
def same : Value → Value → Bool
  | .null, .null => true
  | .bool a, .bool b => a == b
  | .number a, .number b => a.same b
  | .string a, .string b => a == b
  | .list a, .list b => sameItems a b
  | .mapping a, .mapping b => a.length == b.length && sameEntries a b
  | .tagged s a, .tagged t b => s == t && same a b
  | _, _ => false
termination_by structural v => v

def sameItems : List Value → List Value → Bool
  | [], [] => true
  | a :: as, b :: bs => same a b && sameItems as bs
  | _, _ => false
termination_by structural l => l

/-- Every entry of the first mapping occurs in the second. -/
def sameEntries : List (Value × Value) → List (Value × Value) → Bool
  | [], _ => true
  | (k, v) :: r, bs => bs.any (fun e => same k e.1 && same v e.2) && sameEntries r bs
termination_by structural l => l
end

def untagged : Value → Value
  | .tagged _ v => v.untagged
  | v => v

def asString? (v : Value) : Option String :=
  match v.untagged with
  | .string s => some s
  | _ => none

def asMapping? (v : Value) : Option Mapping :=
  match v.untagged with
  | .mapping m => some m
  | _ => none

/-- The word for a value's form in messages about instances. -/
def formName : Value → String
  | .null => "null"
  | .bool _ => "boolean"
  | .number _ => "number"
  | .string _ => "string"
  | .list _ => "list"
  | .mapping _ => "mapping"
  | .tagged _ _ => "tagged value"

theorem same_string_iff (s : String) (v : Value) : same (.string s) v = true ↔ v = .string s := by
  cases v <;> simp only [same, beq_iff_eq, Value.string.injEq, Bool.false_eq_true, reduceCtorEq]
  exact eq_comm

end Value
end SignalCatalog
