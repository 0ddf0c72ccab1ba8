import SignalCatalog.Instance.Level
import SignalCatalog.Value.Inspect
import SignalCatalog.Value.Typed
import SignalCatalog.Yaml.Write
/-!
# Payloads

What a node carries: fields common to all kinds, fields of its kind, and further attributes kept as they were written.
The errors of reading and checking a payload are here too; a `NodeError` says at which node one arose.
-/
namespace SignalCatalog

inductive Kind where
  | branch
  | attr
  | sensor
  | actuator
  | struct
  | property
  deriving DecidableEq, Repr

namespace Kind

def all : List Kind := [branch, attr, sensor, actuator, struct, property]

def name : Kind → String
  | branch => "branch"
  | attr => "attribute"
  | sensor => "sensor"
  | actuator => "actuator"
  | struct => "struct"
  | property => "property"

def ofName? (s : String) : Option Kind := all.find? fun k => k.name == s

def hasDatatype : Kind → Bool
  | branch => false
  | struct => false
  | _ => true

def commonKeys : List String :=
  ["type", "description", "comment", "delete", "deprecation", "constUID", "fka", "instantiate"]

def datatypeKeys : List String := ["datatype", "arraysize", "min", "max", "unit", "allowed", "default"]

def branchKeys : List String := ["instances"]

def ownKeys : Kind → List String
  | branch => branchKeys
  | struct => []
  | _ => datatypeKeys

/-- **The keys that are fields**; all others are further attributes. -/
def declaredKeys (k : Kind) : List String := commonKeys ++ k.ownKeys

theorem ofName?_name (k : Kind) : ofName? k.name = some k := by cases k <;> rfl

end Kind

/-- The fields of every node. -/
structure CommonFields where
  description : String
  comment : Option String := none
  /-- Marks the node and all below it for removal. -/
  delete : Bool := false
  deprecation : Option String := none
  constUid : Option String := none
  /-- Former names. -/
  fka : List String := []
  /-- Whether the node is copied into every instance of its parent. -/
  instantiate : Bool := true
  /-- Attributes the kind does not declare, in the order they were written. -/
  extra : Mapping := []
  deriving Repr, Inhabited

/-- The fields of a node with a datatype. -/
structure DatatypeFields where
  datatype : String
  arraysize : Option Nat := none
  min : Option Number := none
  max : Option Number := none
  unit : Option String := none
  allowed : Option (List Value) := none
  default : Option Value := none
  deriving Repr, Inhabited

/-- The fields of a kind. -/
inductive Body where
  | branch (instances : List Level)
  | attr (fields : DatatypeFields)
  | sensor (fields : DatatypeFields)
  | actuator (fields : DatatypeFields)
  | struct
  | property (fields : DatatypeFields)
  deriving Repr, Inhabited

/-- **What a node carries.** -/
structure Payload where
  common : CommonFields
  body : Body
  deriving Repr, Inhabited

namespace Payload

def branch (description : String) : Payload := { common := { description }, body := .branch [] }

/-- The payload of a branch that only connects a node to the tree. -/
def placeholder : Payload := branch "Autogenerated branch"

def kind (p : Payload) : Kind :=
  match p.body with
  | .branch _ => .branch
  | .attr _ => .attr
  | .sensor _ => .sensor
  | .actuator _ => .actuator
  | .struct => .struct
  | .property _ => .property

def datatypeFields? (p : Payload) : Option DatatypeFields :=
  match p.body with
  | .attr f => some f
  | .sensor f => some f
  | .actuator f => some f
  | .property f => some f
  | _ => none

def datatype? (p : Payload) : Option String := p.datatypeFields?.map (·.datatype)

def instances (p : Payload) : List Level :=
  match p.body with
  | .branch levels => levels
  | _ => []

def clearInstances (p : Payload) : Payload :=
  match p.body with
  | .branch _ => { p with body := .branch [] }
  | _ => p

/-- **The names of the further attributes**; a key that is no string is named as messages show it. -/
def extraNames (p : Payload) : List String := p.common.extra.map fun e => e.1.asString?.getD e.1.inspect

end Payload

/-! ## Errors -/

/-- What is wrong with the value of a field. -/
inductive FieldFault where
  | mismatch (cause : Mismatch)
  | declaration (cause : Level.DeclarationError)
  | notMapping
  | nameNotString
  deriving DecidableEq, Repr

def FieldFault.reason : FieldFault → String
  | mismatch cause => cause.message
  | declaration cause => cause.reason
  | notMapping => "expected a mapping"
  | nameNotString => "node names must be strings"

/-- **A rule between the fields of a payload that does not hold.** -/
inductive Breach where
  | constUidForm (uid : String)
  | arraysizeOnScalar (datatype : String)
  | defaultCount (found arraysize : Nat)
  | scalarDefault (datatype : String)
  | listDefault (datatype : String)
  | defaultType (value : Value) (datatype : String)
  | defaultNotAllowed (value : Value)
  | allowedType (value : Value) (datatype : String)
  | allowedWithBounds
  | unitDatatype (unit datatype : String) (allowed : List String)
  /-- An instance has the name of a node that is no branch. -/
  | instanceCollision (name : String) (kind : Kind)
  deriving Repr

namespace Breach

/-- A value as YAML, without its last line end, or as messages show values if it has no YAML text. -/
def shown (v : Value) : String :=
  match Yaml.write v with
  | .ok text => String.ofList (Text.trimEnd text.toList)
  | .error _ => v.inspect

def field : Breach → String
  | constUidForm _ => "constUID"
  | arraysizeOnScalar _ => "arraysize"
  | defaultCount _ _ => "default"
  | scalarDefault _ => "default"
  | listDefault _ => "default"
  | defaultType _ _ => "default"
  | defaultNotAllowed _ => "default"
  | allowedType _ _ => "allowed"
  | allowedWithBounds => "allowed"
  | unitDatatype _ _ _ => "unit"
  | instanceCollision _ _ => "instances"

def reason : Breach → String
  | constUidForm uid => "'" ++ uid ++ "' does not match 0xXXXXXXXX"
  | arraysizeOnScalar datatype => "set on non-array datatype '" ++ datatype ++ "'"
  | defaultCount found arraysize => "has " ++ toString found ++ " elements but arraysize is " ++ toString arraysize
  | scalarDefault datatype => "scalar default for array datatype '" ++ datatype ++ "'"
  | listDefault datatype => "list default for scalar datatype '" ++ datatype ++ "'"
  | defaultType value datatype => shown value ++ " is not of type '" ++ datatype ++ "'"
  | defaultNotAllowed value => "value " ++ shown value ++ " is not in 'allowed'"
  | allowedType value datatype => shown value ++ " is not of type '" ++ datatype ++ "'"
  | allowedWithBounds => "'min/max' and 'allowed' cannot be used together"
  | unitDatatype unit datatype allowed =>
    "unit '" ++ unit ++ "' does not allow datatype '" ++ datatype ++ "' (allowed: " ++ ", ".intercalate allowed ++ ")"
  | instanceCollision name kind => "instance '" ++ name ++ "' collides with a " ++ kind.name

end Breach

inductive PayloadError where
  | unknownKind (name : String)
  | missingField (field : String)
  | invalidField (field : String) (fault : FieldFault)
  | invariant (breach : Breach)
  | unknownDatatype (name : String)
  | unknownUnit (name : String)
  deriving Repr

def PayloadError.message : PayloadError → String
  | unknownKind name => "unknown node type '" ++ name ++ "'"
  | missingField field => "missing required field '" ++ field ++ "'"
  | invalidField field fault => "invalid field '" ++ field ++ "': " ++ fault.reason
  | invariant breach => "'" ++ breach.field ++ "': " ++ breach.reason
  | unknownDatatype name => "unknown datatype '" ++ name ++ "'"
  | unknownUnit name => "unknown unit '" ++ name ++ "'"

/-- A payload error at a node. -/
structure NodeError where
  fqn : String
  cause : PayloadError
  deriving Repr

def NodeError.message (e : NodeError) : String := "node '" ++ e.fqn ++ "': " ++ e.cause.message

end SignalCatalog
