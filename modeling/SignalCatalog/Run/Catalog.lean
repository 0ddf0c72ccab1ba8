import SignalCatalog.Json.Write
import SignalCatalog.Registry.Load
import SignalCatalog.Run.Config
import SignalCatalog.TypeTree
import SignalCatalog.Uuid.Named
/-!
# A run

A run fills the registry, builds the signal tree from its files, expands and prunes it, merges the overlays one after
another, and checks what has come out.  The first failure ends it; a run whose expansion has no end has no outcome.
-/
namespace SignalCatalog

/-- **Why a run stops**, by stage. -/
inductive RunError where
  | config
  | units (error : UnitError)
  | includes (error : IncludeError)
  | build (error : BuildError)
  | expansion (error : ExpansionError)
  | overlay (error : OverlayError)
  | types (error : TypesError)
  | policy (error : PolicyError)
  | json (error : Json.JsonError)
  | yaml (error : Yaml.WriteError)
  deriving Repr

namespace RunError

def message : RunError → String
  | config => "Config error: " ++ noVspecText
  | units e => e.message
  | includes e => e.message
  | build e => e.message
  | expansion e => e.message
  | overlay e => e.message
  | types e => e.message
  | policy e => e.message
  | json e => "JSON error: " ++ e.message
  | yaml e => "YAML error: " ++ e.message

/-- The word for the stage in front of its message, for stages of the compiler proper. -/
def stage? : RunError → Option String
  | config => none
  | units _ => some "Unit error: "
  | includes _ => some "Include error: "
  | build _ => some "Build error: "
  | expansion _ => some "Expansion error: "
  | overlay _ => some "Overlay error: "
  | types _ => some "Types error: "
  | policy _ => some "Policy error: "
  | json _ => none
  | yaml _ => none

def includeCause : IncludeError → List String
  | .unreadable _ cause => [cause.message]
  | _ => []

def buildCause : BuildError → List String
  | .node e => [e.cause.message]
  | _ => []

def overlayCause : OverlayError → List String
  | .node e => [e.cause.message]
  | _ => []

def causes : RunError → List String
  | units (.unreadable _ cause) => [cause.message]
  | includes e => includeCause e
  | build e => buildCause e
  | expansion (.node e) => [e.cause.message]
  | overlay e => overlayCause e
  | types (.includes e) => includeCause e
  | types (.build e) => buildCause e
  | types (.merge e) => overlayCause e
  | json e => [e.message]
  | yaml e => [e.message]
  | _ => []

/-- **Everything there is to say about a failure**, the widest view first: a stage's message comes with the stage in
front, twice, then alone, then what lies behind it. -/
def chain (e : RunError) : List String :=
  (match e.stage? with
    | some stage => [stage ++ e.message, stage ++ e.message, e.message]
    | none => [e.message]) ++ e.causes

end RunError

/-- **A step of a run**, which may fail and ends unless an expansion in it does not. -/
abbrev Running := ExceptT RunError Option

/-- **What a run produces.** -/
structure Catalog where
  root : Tree
  types : Option Tree
  registry : Registry
  deriving Repr

namespace Catalog

def loadDefinitions (load : Registry → String → Registry.Loaded) (r : Registry) : List String → Except RunError Registry
  | [] => .ok r
  | path :: rest =>
    match load r path with
    | (r, .ok _) => loadDefinitions load r rest
    | (_, .error e) => .error (.units e)

/-- The registry of a run: quantities, then the units that measure them. -/
def loadRegistry (files : Files) (c : Config) : Except RunError Registry := do
  let r ← loadDefinitions (Registry.loadQuantityFile files) .empty (c.quantityFiles files)
  loadDefinitions (Registry.loadUnitFile files) r (c.unitFiles files)

def expand (c : Config) (t : Tree) : Running Tree := do
  if c.expand then
    match ← t.expand with
    | (t, .ok _) => return t
    | (_, .error e) => throw (.expansion e)
  else return t

def buildTree (r : Registry) (mode : BuildMode) (data : Mapping) : Except RunError Tree :=
  match build r mode data with
  | .ok outcome => .ok outcome.tree
  | .error e => .error (.build e)

def loadSpec (files : Files) (c : Config) (path : String) : Except RunError Spec :=
  match Spec.load files c.includeDirs path none with
  | .ok spec => .ok spec
  | .error e => .error (.includes e)

def applyOverlay (files : Files) (c : Config) (r : Registry) (t : Tree) (path : String) : Running Tree := do
  let spec ← loadSpec files c path
  let overlay ← expand c (← buildTree r .overlay (Overlay.complete t spec.data))
  match t.merge r overlay with
  | (t, .ok _) => return t
  | (_, .error e) => throw (.overlay e)

/-- **All overlays**; what they bring is expanded and pruned at the end. -/
def applyOverlays (files : Files) (c : Config) (r : Registry) (t : Tree) : Running Tree := do
  if c.overlays.isEmpty then return t
  let t ← c.overlays.foldlM (applyOverlay files c r) t
  return (← expand c t).prune.1

def enforce : Except PolicyError Unit → Except RunError Unit
  | .ok _ => .ok ()
  | .error e => .error (.policy e)

/-- **The checks of a run**: structure first, then the type tree's attributes, then the policies of the signal tree. -/
def check (c : Config) (root : Tree) (types : Option Tree) : Except RunError Unit := do
  enforce root.checkParents
  match types with
  | some t =>
    enforce t.checkParents
    enforce (t.checkExtra c.extendedAttributes .fail)
  | none => pure ()
  enforce (root.checkNaming (c.level .nameStyle))
  enforce (root.checkExtra c.extendedAttributes (c.level .unknownAttribute))

/-- The signal tree of a run, before it is checked. -/
def signalTree (files : Files) (c : Config) (r : Registry) : Running Tree := do
  let spec ← loadSpec files c c.vspec
  let t ← expand c (← buildTree r .connect spec.data)
  applyOverlays files c r t.prune.1

/-- The type tree of a run, and the registry with its structs. -/
def typeTree (files : Files) (c : Config) (r : Registry) : Except RunError (Registry × Option Tree) :=
  match TypeTree.load files c.includeDirs c.types r with
  | (r, .ok types) => .ok (r, types)
  | (_, .error e) => .error (.types e)

def identify (c : Config) (t : Tree) : Tree := if c.uuid then t.addUuids else t

/-- **The catalogue of a run.** -/
def compile (files : Files) (c : Config) : Running Catalog := do
  if c.vspec = "" then throw .config
  let (registry, types) ← typeTree files c (← loadRegistry files c)
  let root := identify c (← signalTree files c registry)
  let types := types.map (identify c)
  check c root types
  return { root, types, registry }

/-- **The flat view of a run's tree**; further attributes are shown if the run names any. -/
def flatten (c : Config) (t : Tree) : Mapping := t.flat (!c.extendedAttributes.isEmpty)

def toYaml (c : Config) (t : Tree) : Except RunError String :=
  match Yaml.write (.mapping (flatten c t)) with
  | .ok text => .ok text
  | .error e => .error (.yaml e)

def toJson (c : Config) (t : Tree) : Except RunError String :=
  match Json.write (.mapping (flatten c t)) with
  | .ok text => .ok text
  | .error e => .error (.json e)

end Catalog
end SignalCatalog
