import SignalCatalog.Value.Inspect
import SignalCatalog.Value.Mapping
/-!
# Putting mappings together

Included entries must be new; entries of a later file refine those of an earlier one, mapping by mapping.
-/
namespace SignalCatalog
namespace Mapping

/-- Entries added one after another until one has a key that is there already: the mapping so far, and that key. -/
def addNew (base : Mapping) : Mapping → Mapping × Option Value
  | [] => (base, none)
  | (k, v) :: rest => if base.contains k then (base, some k) else addNew (base ++ [(k, v)]) rest

end Mapping

namespace Value

mutual
/-- **A value refined by another**: two mappings are merged, anything else gives way. -/
def refineBy (current : Value) : Value → Value
  | .mapping update =>
    match current with
    | .mapping base => .mapping (refineEntries base update)
    | _ => .mapping update
  | v => v
termination_by structural v => v

def refineEntries (base : List (Value × Value)) : List (Value × Value) → List (Value × Value)
  | [] => base
  | (k, v) :: rest =>
    let refined :=
      match Mapping.lookup? base k with
      | some current => refineBy current v
      | none => v
    refineEntries (Mapping.insert base k refined) rest
termination_by structural l => l
end

end Value

namespace Mapping

/-- **Deep update**: at a key that both have, mappings are merged and anything else is replaced; new keys go last. -/
def deepUpdate (base update : Mapping) : Mapping := Value.refineEntries base update

end Mapping
end SignalCatalog
