import SignalCatalog.Value.Basic
/-!
# Ordered mappings

The operations on a mapping: look-up, insertion, which keeps the place of a key that is already there, and removal,
which moves the last entry into the hole.
-/
namespace SignalCatalog
namespace Mapping

def lookup? (m : Mapping) (key : Value) : Option Value := (List.find? (fun e => key.same e.1) m).map (·.2)

def get? (m : Mapping) (name : String) : Option Value := m.lookup? (.string name)

def contains (m : Mapping) (key : Value) : Bool := m.any fun e => key.same e.1

def has (m : Mapping) (name : String) : Bool := m.contains (.string name)

def keys (m : Mapping) : List Value := m.map (·.1)

/-- **Insertion**: a key that is there keeps its place and takes the new value, any other goes last. -/
def insert : Mapping → Value → Value → Mapping
  | [], key, value => [(key, value)]
  | (k, v) :: r, key, value => if key.same k then (k, value) :: r else (k, v) :: insert r key value

def put (m : Mapping) (name : String) (value : Value) : Mapping := m.insert (.string name) value

def extend (m : Mapping) (pairs : List (Value × Value)) : Mapping := pairs.foldl (fun m e => m.insert e.1 e.2) m

/-- The mapping of a list of pairs: a repeated key keeps its first place and takes its last value. -/
def ofPairs (pairs : List (Value × Value)) : Mapping := extend [] pairs

/-- **Removal**: the last entry moves into the place of the one that goes. -/
def remove (m : Mapping) (name : String) : Mapping :=
  match m.findIdx? fun e => (Value.string name).same e.1 with
  | none => m
  | some i =>
    match m.getLast? with
    | none => m
    | some e => (m.set i e).dropLast

def Distinct (m : Mapping) : Prop := m.Pairwise fun a b => a.1.same b.1 = false

end Mapping
end SignalCatalog
