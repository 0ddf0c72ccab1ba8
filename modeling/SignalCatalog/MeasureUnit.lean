import SignalCatalog.Datatype
import SignalCatalog.Files
import SignalCatalog.Value.Inspect
import SignalCatalog.Value.Typed
/-!
# Quantities and units

A unit measures a quantity and may be given to signals of certain datatypes.  A unit is registered under its symbol; its
long name is an alias of the symbol.
-/
namespace SignalCatalog

structure Quantity where
  definition : String
  comment : Option String := none
  remark : Option String := none
  deriving DecidableEq, Repr, Inhabited

structure MeasureUnit where
  symbol : String
  definition : String
  /-- The long name. -/
  name : String
  quantity : String
  allowed : List String
  deriving DecidableEq, Repr, Inhabited

/-- What is wrong with an entry of a definition file. -/
inductive EntryFault where
  | mismatch (cause : Mismatch)
  | notMapping
  | keyNotString
  deriving DecidableEq, Repr

def EntryFault.message : EntryFault → String
  | mismatch cause => cause.message
  | notMapping => "expected a mapping of definitions"
  | keyNotString => "definition keys must be strings"

inductive UnitError where
  | unknownQuantity (unit quantity : String)
  | unknownDatatype (unit datatype : String)
  | malformed (key : String) (fault : EntryFault)
  | notYaml (source : String)
  | unreadable (path : String) (cause : FileError)
  deriving DecidableEq, Repr

def UnitError.message : UnitError → String
  | unknownQuantity unit quantity => "unit '" ++ unit ++ "' references unknown quantity '" ++ quantity ++ "'"
  | unknownDatatype unit datatype => "unit '" ++ unit ++ "' allows unknown datatype '" ++ datatype ++ "'"
  | malformed key fault => "malformed entry '" ++ key ++ "': " ++ fault.message
  | notYaml source => "malformed entry '" ++ source ++ "'"
  | unreadable path cause => "failed to read " ++ path ++ ": " ++ cause.message

/-- **A table from names to things**, each name once. -/
abbrev Table (α : Type) := List (String × α)

namespace Table

variable {α : Type}

def find? (t : Table α) (name : String) : Option α := (List.find? (fun e => e.1 == name) t).map (·.2)

def has (t : Table α) (name : String) : Bool := (t.find? name).isSome

/-- The name takes the thing, whether it had one before or not. -/
def insert : Table α → String → α → Table α
  | [], name, a => [(name, a)]
  | (n, b) :: r, name, a => if n == name then (n, a) :: r else (n, b) :: insert r name a

end Table

/-- **The quantities and units of a run.** -/
structure Units where
  quantities : Table Quantity := []
  /-- By symbol. -/
  units : Table MeasureUnit := []
  /-- From long names to symbols. -/
  aliases : Table String := []
  deriving Repr, Inhabited

namespace Units

def registerQuantity (u : Units) (name : String) (q : Quantity) : Units :=
  { u with quantities := u.quantities.insert name q }

/-- **Registration of a unit**, whose quantity and datatypes must be known. -/
def register (u : Units) (d : Datatypes) (unit : MeasureUnit) : Except UnitError Units :=
  if !u.quantities.has unit.quantity then .error (.unknownQuantity unit.symbol unit.quantity)
  else
    match unit.allowed.find? fun t => !d.isKnown t with
    | some bad => .error (.unknownDatatype unit.symbol bad)
    | none =>
      .ok { u with
        aliases := if unit.name = unit.symbol then u.aliases else u.aliases.insert unit.name unit.symbol
        units := u.units.insert unit.symbol unit }

/-- The unit of a symbol or a long name; a symbol goes first. -/
def lookup? (u : Units) (name : String) : Option MeasureUnit :=
  match u.units.find? name with
  | some unit => some unit
  | none => (u.aliases.find? name).bind u.units.find?

def quantity? (u : Units) (name : String) : Option Quantity := u.quantities.find? name

/-- The tables are emptied, each by itself. -/
def clear (u : Units) : Units := { u with quantities := [], units := [], aliases := [] }

/-- Whether a signal of datatype `base` may be given a unit because of one of the datatypes the unit allows. -/
def allowsBase (d : Datatypes) (base : String) : List String → Except DatatypeError Bool
  | [] => .ok false
  | a :: rest => do
    if Datatype.base a = base then return true
    else if ← d.isSubtype base (Datatype.base a) then return true
    else allowsBase d base rest

/-- **Compatibility**: the unit allows the datatype, array suffixes left aside, or one that has it as a subtype. -/
def isCompatible (d : Datatypes) (unit : MeasureUnit) (datatype : String) : Except DatatypeError Bool :=
  allowsBase d (Datatype.base datatype) unit.allowed

end Units

/-! ## Records of definition files -/

namespace Value

/-- The entries of a record; null is the empty record. -/
def readRecord (v : Value) (expected : String) : Except Mismatch Mapping :=
  match v.untagged with
  | .mapping m => .ok m
  | .null => .ok []
  | _ => .error (.wrongType v.found expected)

def readFieldName (v : Value) : Except Mismatch String :=
  match v.untagged with
  | .string s => .ok s
  | _ => .error (.wrongType v.found "field identifier")

def readOptionalString : Value → Except Mismatch (Option String)
  | .null => .ok none
  | v => some <$> v.readString

end Value

def onceOnly {α β : Type} (field : String) (seen : Option α) (read : Except Mismatch β) : Except Mismatch β :=
  if seen.isSome then .error (.duplicateField field) else read

def present {α : Type} (field : String) : Option α → Except Mismatch α
  | some a => .ok a
  | none => .error (.missingField field)

namespace Quantity

/-- The fields of a quantity read so far. -/
structure Draft where
  definition : Option String := none
  comment : Option (Option String) := none
  remark : Option (Option String) := none

/-- One field of a quantity; there are no others than these three. -/
def Draft.take (d : Draft) (field : String) (v : Value) : Except Mismatch Draft :=
  match field with
  | "definition" => onceOnly field d.definition do return { d with definition := some (← v.readString) }
  | "comment" => onceOnly field d.comment do return { d with comment := some (← v.readOptionalString) }
  | "remark" => onceOnly field d.remark do return { d with remark := some (← v.readOptionalString) }
  | _ => .error (.unknownField field ["definition", "comment", "remark"])

/-- **A quantity read key by key**, in the order of the file. -/
def read (v : Value) : Except Mismatch Quantity := do
  let entries ← v.readRecord "struct QuantityDescriptor"
  let d ← entries.foldlM (fun d e => do d.take (← e.1.readFieldName) e.2) ({} : Draft)
  return { definition := ← present "definition" d.definition, comment := d.comment.join, remark := d.remark.join }

end Quantity

namespace MeasureUnit

/-- The fields of a unit read so far. -/
structure Draft where
  definition : Option String := none
  name : Option String := none
  quantity : Option String := none
  allowed : Option (List String) := none

def Draft.take (d : Draft) (field : String) (v : Value) : Except Mismatch Draft :=
  match field with
  | "definition" => onceOnly field d.definition do return { d with definition := some (← v.readString) }
  | "unit" => onceOnly field d.name do return { d with name := some (← v.readString) }
  | "quantity" => onceOnly field d.quantity do return { d with quantity := some (← v.readString) }
  | "allowed-datatypes" => onceOnly field d.allowed do return { d with allowed := some (← v.readStrings) }
  | _ => .ok d

/-- **The unit of a symbol read key by key**, in the order of the file. -/
def read (symbol : String) (v : Value) : Except Mismatch MeasureUnit := do
  let entries ← v.readRecord "struct UnitDescriptor"
  let d ← entries.foldlM (fun d e => do d.take (← e.1.readFieldName) e.2) ({} : Draft)
  return {
    symbol
    definition := ← present "definition" d.definition
    name := ← present "unit" d.name
    quantity := ← present "quantity" d.quantity
    allowed := ← present "allowed-datatypes" d.allowed }

end MeasureUnit

/-- **The entries of a definition file**: none for an empty document, else a mapping with string keys. -/
def definitionEntries (source : String) : Value → Except UnitError (List (String × Value))
  | .null => .ok []
  | .mapping m =>
    m.mapM fun e =>
      match e.1 with
      | .string key => .ok (key, e.2)
      | other => .error (.malformed other.inspect .keyNotString)
  | _ => .error (.malformed source .notMapping)

end SignalCatalog
