import SignalCatalog.Payload.Basic
/-!
# Equality of payloads

Two payloads are the same when they have the same fields, values being compared as values: a mapping without regard to
the order of its entries, a double with all not-a-numbers equal.
-/
namespace SignalCatalog

def sameOption {α : Type} (same : α → α → Bool) : Option α → Option α → Bool
  | none, none => true
  | some a, some b => same a b
  | _, _ => false

def CommonFields.same (a b : CommonFields) : Bool :=
  a.description == b.description && a.comment == b.comment && a.delete == b.delete &&
    a.deprecation == b.deprecation && a.constUid == b.constUid && a.fka == b.fka && a.instantiate == b.instantiate &&
    Value.same (.mapping a.extra) (.mapping b.extra)

def DatatypeFields.same (a b : DatatypeFields) : Bool :=
  a.datatype == b.datatype && a.arraysize == b.arraysize && sameOption Number.same a.min b.min &&
    sameOption Number.same a.max b.max && a.unit == b.unit && sameOption Value.sameItems a.allowed b.allowed &&
    sameOption Value.same a.default b.default

def Body.same : Body → Body → Bool
  | .branch a, .branch b => a == b
  | .attr a, .attr b => a.same b
  | .sensor a, .sensor b => a.same b
  | .actuator a, .actuator b => a.same b
  | .struct, .struct => true
  | .property a, .property b => a.same b
  | _, _ => false

/-- **Equality of payloads.** -/
def Payload.same (a b : Payload) : Bool := a.common.same b.common && a.body.same b.body

end SignalCatalog
