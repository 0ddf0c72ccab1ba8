import SignalCatalog.Registry.Basic
import SignalCatalog.Yaml.Read
/-!
# Definition files

Quantities and units are read from YAML texts.  Loading gives the registry afterwards together with the number of
entries or the first failure; entries before a failing one stay registered.
-/
namespace SignalCatalog
namespace Registry

abbrev Loaded := Registry × Except UnitError Nat

/-- The entries of a text, registered by `step`. -/
def loadText (step : Registry → String × Value → Except UnitError Registry) (r : Registry) (text source : String) :
    Loaded :=
  match Yaml.read text with
  | .error _ => (r, .error (.notYaml source))
  | .ok document =>
    match definitionEntries source document with
    | .error e => (r, .error e)
    | .ok entries =>
      match registerAll step r entries with
      | (r', none) => (r', .ok entries.length)
      | (r', some e) => (r', .error e)

/-- **The quantities of a text.** -/
def loadQuantities : Registry → String → String → Loaded := loadText takeQuantity

/-- **The units of a text**, whose quantities must be known. -/
def loadUnits : Registry → String → String → Loaded := loadText takeUnit

/-- The text of a file, loaded under the file's path. -/
def loadFile (load : Registry → String → String → Loaded) (files : Files) (r : Registry) (path : String) : Loaded :=
  match files.read path with
  | .error cause => (r, .error (.unreadable path cause))
  | .ok text => load r text path

def loadQuantityFile : Files → Registry → String → Loaded := loadFile loadQuantities
def loadUnitFile : Files → Registry → String → Loaded := loadFile loadUnits

end Registry
end SignalCatalog
