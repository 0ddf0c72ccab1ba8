import SignalCatalog.QualifiedName
import SignalCatalog.Spec.Include
import SignalCatalog.Spec.Update
import SignalCatalog.Yaml.Read
/-!
# Loading specifications

A specification file is a mapping from qualified names to payloads.  Loading one brings in its includes, each file's own
entries first and then those of its includes in the order of the statements; no key may come twice.  A file that
includes itself, over others or directly, is refused, so loading ends: every file on the way down is another one.
-/
namespace SignalCatalog

/-- **A file with all its includes.** -/
structure Spec where
  source : String
  scope : Option String
  data : Mapping
  deriving Repr, Inhabited

namespace Spec

/-- The mapping of a text; an empty document is the empty mapping. -/
def parse (content path : String) : Except IncludeError Mapping :=
  match Yaml.read content with
  | .error _ => .error (.notYaml path)
  | .ok .null => .ok []
  | .ok (.mapping m) => .ok m
  | .ok _ => .error (.notAMapping path)

def putInside (scope : Option String) (m : Mapping) : Mapping :=
  match scope with
  | none => m
  | some s =>
    m.map fun e =>
      match e.1 with
      | .string key => (.string (QualifiedName.child s key), e.2)
      | _ => e

def keyName (k : Value) : String := k.asString?.getD k.inspect

def addIncluded (base included : Mapping) : Except IncludeError Mapping :=
  match base.addNew included with
  | (m, none) => .ok m
  | (_, some k) => .error (.duplicateEntry (keyName k))

/-- **The entries of included files added to a file's own**, statement by statement; `loadTarget` loads one of them. -/
def addIncludes (files : Files) (loadTarget : String → Option String → Except IncludeError Mapping)
    (searched : List String) (scope : Option String) (data : Mapping) :
    (statements : List String) → Except IncludeError Mapping
  | [] => .ok data
  | statement :: rest => do
    let i ← Include.parse statement scope
    let target ← i.resolve files searched
    let data ← addIncluded data (← loadTarget target i.scope)
    addIncludes files loadTarget searched scope data rest

/-- **A file and its includes**, at most `depth` files deep, `stack` being the places of the files that led to it.  A
way down that is longer than there are files has one of them twice. -/
def loadWithin (files : Files) (dirs : List String) :
    (depth : Nat) → (stack : List Place) → (source : String) → (scope : Option String) → Except IncludeError Mapping
  | 0, _, source, _ => .error (.cycle source)
  | depth + 1, stack, source, scope =>
    match files.locate source with
    | .error cause => .error (.unreadable source cause)
    | .ok place =>
      if stack.contains place then .error (.cycle source)
      else
        match files.at? place with
        | some (.text content) => do
          let data ← parse content source
          addIncludes files (loadWithin files dirs depth (place :: stack)) (Include.searchDirs source dirs) scope
            (putInside scope data) (Include.statements content)
        | _ => .error (.unreadable source .isDirectory)

/-- The depth at which no file is left that is not on the way already. -/
def depthBound (files : Files) : Nat := files.entries.length + 1

/-- **A file with all its includes**, its keys inside a scope if one is given. -/
def load (files : Files) (dirs : List String) (source : String) (scope : Option String) : Except IncludeError Spec := do
  return { source, scope, data := ← loadWithin files dirs (depthBound files) [] source scope }

/-- Files loaded after the first, each refining what is there. -/
def loadMore (files : Files) (dirs : List String) (base : Spec) : List String → Except IncludeError Spec
  | [] => .ok base
  | source :: rest => do
    let more ← load files dirs source none
    loadMore files dirs { base with data := base.data.deepUpdate more.data } rest

/-- **One specification of several files**, the later ones refining the earlier ones; there has to be one. -/
def loadAll (files : Files) (dirs : List String) : List String → Except IncludeError Spec
  | [] => .error (.notFound "vspec" [])
  | source :: rest => do loadMore files dirs (← load files dirs source none) rest

end Spec
end SignalCatalog
