import SignalCatalog.Payload.Validate
/-!
# Reading a payload

A payload is read from a mapping by its `type`: the keys that the kind declares are read at their types, an explicit
null being the same as no key at all, and all other keys are kept as further attributes.
-/
namespace SignalCatalog
namespace Payload

/-- A declared field, absent when the key is missing or null. -/
def field {α : Type} (read : Value → Except Mismatch α) (m : Mapping) (key : String) : Except PayloadError (Option α) :=
  match m.get? key with
  | none => .ok none
  | some .null => .ok none
  | some v =>
    match read v with
    | .ok a => .ok (some a)
    | .error cause => .error (.invalidField key (.mismatch cause))

def required {α : Type} (read : Value → Except Mismatch α) (m : Mapping) (key : String) : Except PayloadError α := do
  match ← field read m key with
  | some a => return a
  | none => throw (.missingField key)

/-- Whether a key is one of the kind's fields, tags looked through. -/
def isDeclared (k : Kind) (key : Value) : Bool :=
  match key.asString? with
  | some name => k.declaredKeys.contains name
  | none => false

/-- The common fields, `extra` being the entries that are no fields. -/
def readCommon (declared extra : Mapping) : Except PayloadError CommonFields := do
  let description ← required Value.readString declared "description"
  let comment ← field Value.readString declared "comment"
  let delete ← field Value.readBool declared "delete"
  let deprecation ← field Value.readString declared "deprecation"
  let constUid ← field Value.readString declared "constUID"
  let fka ← field Value.readStrings declared "fka"
  let instantiate ← field Value.readBool declared "instantiate"
  return { description, comment, delete := delete.getD false, deprecation, constUid, fka := fka.getD []
           instantiate := instantiate.getD true, extra }

def readDatatypeFields (declared : Mapping) : Except PayloadError DatatypeFields := do
  let datatype ← required Value.readString declared "datatype"
  let arraysize ← field Value.readCount declared "arraysize"
  let min ← field Value.readNumber declared "min"
  let max ← field Value.readNumber declared "max"
  let unit ← field Value.readString declared "unit"
  let allowed ← field Value.readValues declared "allowed"
  let default ← field Value.readValue declared "default"
  return { datatype, arraysize, min, max, unit, allowed, default }

def readInstances (declared : Mapping) : Except PayloadError (List Level) :=
  match declared.get? "instances" with
  | none => .ok []
  | some v =>
    match Level.parse v with
    | .ok levels => .ok levels
    | .error cause => .error (.invalidField "instances" (.declaration cause))

def readBody (declared : Mapping) : Kind → Except PayloadError Body
  | .branch => .branch <$> readInstances declared
  | .struct => .ok .struct
  | .attr => .attr <$> readDatatypeFields declared
  | .sensor => .sensor <$> readDatatypeFields declared
  | .actuator => .actuator <$> readDatatypeFields declared
  | .property => .property <$> readDatatypeFields declared

def readKind (m : Mapping) : Except PayloadError Kind := do
  let name ← required Value.readString m "type"
  match Kind.ofName? name with
  | some k => return k
  | none => throw (.unknownKind name)

def readFields (m : Mapping) : Except PayloadError Payload := do
  let k ← readKind m
  let declared := m.filter fun e => isDeclared k e.1
  let extra := m.filter fun e => !isDeclared k e.1
  let common ← readCommon declared extra
  let body ← readBody declared k
  return { common, body }

/-- **A payload read and checked.** -/
def read (r : Registry) (raw : Value) : Except PayloadError Payload := do
  match raw.asMapping? with
  | none => throw (.invalidField "payload" .notMapping)
  | some m =>
    let p ← readFields m
    p.validate r
    return p

end Payload
end SignalCatalog
