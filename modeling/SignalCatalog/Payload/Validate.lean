import SignalCatalog.Payload.Basic
import SignalCatalog.Registry.Basic
/-!
# The rules of a payload

The rules between the fields of a payload, checked against a registry, one after another: the form of the constant uid,
the datatype, the array size, the default, the allowed values, the unit.
-/
namespace SignalCatalog
namespace Payload

def isHexDigit (c : Char) : Bool := c.isDigit || ('a' ≤ c && c ≤ 'f') || ('A' ≤ c && c ≤ 'F')

/-- `0x` and eight hexadecimal digits. -/
def isConstUid (uid : String) : Bool :=
  match uid.toList with
  | '0' :: 'x' :: digits => digits.length == 8 && digits.all isHexDigit
  | _ => false

def checkConstUid (p : Payload) : Except PayloadError Unit :=
  match p.common.constUid with
  | some uid => if isConstUid uid then .ok () else .error (.invariant (.constUidForm uid))
  | none => .ok ()

end Payload

namespace DatatypeFields

def isMember (r : Registry) (v : Value) (datatype : String) : Except PayloadError Bool :=
  match r.datatypes.isValue v datatype with
  | .ok b => .ok b
  | .error _ => .error (.unknownDatatype datatype)

def isAllowed (allowed : List Value) (v : Value) : Bool := allowed.any fun a => a.same v

/-- The values that a default gives to the elements of a signal. -/
def defaultElements : Value → List Value
  | .list items => items
  | v => [v]

/-- **The form of a default**: a list, of the declared size, exactly for array datatypes. -/
def checkDefaultForm (f : DatatypeFields) (v : Value) : Except PayloadError Unit :=
  match Datatype.isArray f.datatype, v with
  | true, .list items =>
    match f.arraysize with
    | some size => if items.length = size then .ok () else .error (.invariant (.defaultCount items.length size))
    | none => .ok ()
  | true, _ => .error (.invariant (.scalarDefault f.datatype))
  | false, .list _ => .error (.invariant (.listDefault f.datatype))
  | false, _ => .ok ()

/-- A default is of the datatype's form and values, and among the allowed values. -/
def checkDefault (r : Registry) (f : DatatypeFields) (v : Value) : Except PayloadError Unit := do
  f.checkDefaultForm v
  if !(← isMember r v f.datatype) then throw (.invariant (.defaultType v f.datatype))
  match f.allowed with
  | some allowed =>
    match (defaultElements v).find? fun e => !isAllowed allowed e with
    | some bad => throw (.invariant (.defaultNotAllowed bad))
    | none => return ()
  | none => return ()

def checkAllowedTypes (r : Registry) (element : String) : List Value → Except PayloadError Unit
  | [] => .ok ()
  | v :: rest => do
    if !(← isMember r v element) then throw (.invariant (.allowedType v element))
    checkAllowedTypes r element rest

def checkAllowed (r : Registry) (f : DatatypeFields) (allowed : List Value) : Except PayloadError Unit := do
  checkAllowedTypes r (Datatype.base f.datatype) allowed
  if f.min.isSome || f.max.isSome then throw (.invariant .allowedWithBounds)

def checkUnit (r : Registry) (f : DatatypeFields) (name : String) : Except PayloadError Unit :=
  match r.unit? name with
  | none => .error (.unknownUnit name)
  | some unit =>
    match Units.isCompatible r.datatypes unit f.datatype with
    | .error _ => .error (.unknownDatatype f.datatype)
    | .ok true => .ok ()
    | .ok false => .error (.invariant (.unitDatatype name f.datatype unit.allowed))

def ifPresent {α : Type} (field : Option α) (check : α → Except PayloadError Unit) : Except PayloadError Unit :=
  match field with
  | some a => check a
  | none => .ok ()

/-- **The rules of a node with a datatype**, in the order they are checked. -/
def validate (r : Registry) (f : DatatypeFields) : Except PayloadError Unit := do
  if !r.datatypes.isKnown f.datatype then throw (.unknownDatatype f.datatype)
  if f.arraysize.isSome && !Datatype.isArray f.datatype then throw (.invariant (.arraysizeOnScalar f.datatype))
  ifPresent f.default (f.checkDefault r)
  ifPresent f.allowed (f.checkAllowed r)
  ifPresent f.unit (f.checkUnit r)

end DatatypeFields

namespace Payload

/-- **All rules of a payload.** -/
def validate (r : Registry) (p : Payload) : Except PayloadError Unit := do
  p.checkConstUid
  DatatypeFields.ifPresent p.datatypeFields? (DatatypeFields.validate r)

end Payload
end SignalCatalog
