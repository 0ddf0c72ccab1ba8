import SignalCatalog.MeasureUnit
/-!
# The registry of a run

The datatypes, quantities and units that payloads are checked against.  It is filled before any tree is built, and every
later stage reads it.
-/
namespace SignalCatalog

structure Registry where
  datatypes : Datatypes := .empty
  units : Units := {}
  deriving Repr, Inhabited

namespace Registry

def empty : Registry := {}

def registerType (r : Registry) (name : String) : Except DatatypeError Registry := do
  return { r with datatypes := ← r.datatypes.register name }

def registerQuantity (r : Registry) (name : String) (q : Quantity) : Registry :=
  { r with units := r.units.registerQuantity name q }

def registerUnit (r : Registry) (unit : MeasureUnit) : Except UnitError Registry := do
  return { r with units := ← r.units.register r.datatypes unit }

def unit? (r : Registry) (name : String) : Option MeasureUnit := r.units.lookup? name

def clearDynamic (r : Registry) : Registry := { r with datatypes := r.datatypes.clearDynamic }

/-- **Everything registered is forgotten.** -/
def reset (r : Registry) : Registry := { r.clearDynamic with units := r.units.clear }

/-- A registry that has forgotten everything is a new one. -/
@[simp] theorem reset_eq (r : Registry) : r.reset = .empty := by
  rw [reset, clearDynamic, Datatypes.clearDynamic_eq]
  rfl

/-- Registers entries one after another until one fails; those before it stay. -/
def registerAll {α : Type} (step : Registry → α → Except UnitError Registry) (r : Registry) :
    List α → Registry × Option UnitError
  | [] => (r, none)
  | a :: rest =>
    match step r a with
    | .ok r' => registerAll step r' rest
    | .error e => (r, some e)

def takeQuantity (r : Registry) (e : String × Value) : Except UnitError Registry :=
  match Quantity.read e.2 with
  | .ok q => .ok (r.registerQuantity e.1 q)
  | .error m => .error (.malformed e.1 (.mismatch m))

def takeUnit (r : Registry) (e : String × Value) : Except UnitError Registry :=
  match MeasureUnit.read e.1 e.2 with
  | .ok unit => r.registerUnit unit
  | .error m => .error (.malformed e.1 (.mismatch m))

end Registry
end SignalCatalog
