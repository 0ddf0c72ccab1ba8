import SignalCatalog.Value.Mapping
/-!
# From a value to JSON text

Two spaces for each level and one entry a line.  Keys of mappings have to be strings, numbers or booleans; a tag becomes
a mapping with the tag as its only key.
-/
namespace SignalCatalog
namespace Json

/-- Why a value has no JSON text: a key that cannot be written as a string. -/
inductive JsonError where
  | keyNotString
  | keyNotFinite
  deriving DecidableEq, Repr

def JsonError.message : JsonError → String
  | keyNotString => "key must be a string"
  | keyNotFinite => "float key must be finite (got NaN or +/-inf)"

def escape (c : Char) : List Char :=
  if c = '"' then ['\\', '"']
  else if c = '\\' then ['\\', '\\']
  else if c = '\n' then ['\\', 'n']
  else if c = '\r' then ['\\', 'r']
  else if c = '\t' then ['\\', 't']
  else if c.toNat = 8 then ['\\', 'b']
  else if c.toNat = 12 then ['\\', 'f']
  else if c.toNat < 32 then
    ['\\', 'u', '0', '0'] ++ (if c.toNat < 16 then ['0'] else []) ++ Nat.toDigits 16 c.toNat
  else [c]

def quoted (s : String) : String := "\"" ++ String.ofList (s.toList.flatMap escape) ++ "\""

/-- A number; those that JSON has no word for are null. -/
def numberText : Number → String
  | .int n => toString n
  | .float x => Decimal.Layout.json.write x

def boolText (b : Bool) : String := if b then "true" else "false"

/-- **The key of an entry**, quoted. -/
def keyText : Value → Except JsonError String
  | .string s => .ok (quoted s)
  | .bool b => .ok (quoted (boolText b))
  | .number (.int n) => .ok (quoted (toString n))
  | .number (.float x) => if x.isFinite then .ok (quoted (Decimal.Layout.json.write x)) else .error .keyNotFinite
  | _ => .error .keyNotString

def spaces (n : Nat) : String := String.ofList (List.replicate n ' ')

/-- Entries between brackets, one a line, two spaces further in than `indent`. -/
def enclose (indent : Nat) (opening closing : String) (entries : List String) : String :=
  if entries.isEmpty then opening ++ closing
  else
    opening ++ "\n" ++ ",\n".intercalate (entries.map (spaces (indent + 2) ++ ·)) ++ "\n" ++ spaces indent ++ closing

mutual
/-- **The text of a value** whose first line stands at column `indent`. -/
def writeAt (indent : Nat) : Value → Except JsonError String
  | .null => .ok "null"
  | .bool b => .ok (boolText b)
  | .number n => .ok (numberText n)
  | .string s => .ok (quoted s)
  | .list items => do return enclose indent "[" "]" (← writeItems (indent + 2) items)
  | .mapping entries => do return enclose indent "\x7b" "\x7d" (← writeEntries (indent + 2) entries)
  | .tagged tag v => do
    return enclose indent "\x7b" "\x7d" [quoted tag.text ++ ": " ++ (← writeAt (indent + 2) v)]
termination_by structural v => v

def writeItems (indent : Nat) : List Value → Except JsonError (List String)
  | [] => .ok []
  | v :: r => do
    let text ← writeAt indent v
    return text :: (← writeItems indent r)
termination_by structural l => l

def writeEntries (indent : Nat) : List (Value × Value) → Except JsonError (List String)
  | [] => .ok []
  | (k, v) :: r => do
    let key ← keyText k
    let text ← writeAt indent v
    return (key ++ ": " ++ text) :: (← writeEntries indent r)
termination_by structural l => l
end

/-- **The text of a value**, without a line end. -/
def write (v : Value) : Except JsonError String := writeAt 0 v

end Json
end SignalCatalog
