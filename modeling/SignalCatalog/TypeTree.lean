import SignalCatalog.Policy
import SignalCatalog.Spec.Load
import SignalCatalog.Tree.Merge
/-!
# Type trees

Struct types have files of their own.  Every struct becomes a datatype before its file is built, so its properties may
use structs of the same file or an earlier one; all files together make one tree.
-/
namespace SignalCatalog

inductive TypesError where
  | rootTypes (names : List String)
  | propertyOrphans (names : List String)
  | multipleTypeTrees (root : String)
  | includes (error : IncludeError)
  | build (error : BuildError)
  | datatype (error : DatatypeError)
  | merge (error : OverlayError)
  deriving Repr

def TypesError.message : TypesError → String
  | rootTypes names => "struct types must be below a root branch: " ++ ", ".intercalate names
  | propertyOrphans names => "properties outside of a struct: " ++ ", ".intercalate names
  | multipleTypeTrees root => "type tree root '" ++ root ++ "' differs from the first type tree"
  | includes e => e.message
  | build e => e.message
  | datatype e => e.message
  | merge e => e.message

namespace TypeTree

def isStruct (v : Value) : Bool :=
  ((v.asMapping?.bind fun m => m.get? "type").bind Value.asString?) == some "struct"

def structNames (data : Mapping) : List String := (data.filter fun e => isStruct e.2).filterMap fun e => e.1.asString?

/-- Structs registered one after another, those that are known left out. -/
def registerStructs (r : Registry) : List String → Registry × Option DatatypeError
  | [] => (r, none)
  | name :: rest =>
    if (r.datatypes.lookup? name).isSome then registerStructs r rest
    else
      match r.registerType name with
      | .ok r' => registerStructs r' rest
      | .error e => (r, some e)

def buildFile (r : Registry) (data : Mapping) : Except TypesError Tree :=
  match build r .strict data with
  | .error e => .error (.build e)
  | .ok outcome =>
    if outcome.orphans.isEmpty then .ok outcome.tree
    else .error (.build (.unresolvedOrphans (outcome.orphans.map (·.1))))

/-- The tree of one more file put together with those before it. -/
def join (r : Registry) (tree : Tree) : Option Tree → Except TypesError Tree
  | none => .ok tree
  | some first =>
    if tree.rootName ≠ first.rootName then .error (.multipleTypeTrees tree.rootName)
    else
      match first.merge r tree with
      | (merged, .ok _) => .ok merged
      | (_, .error e) => .error (.merge e)

/-- **One type file**: its structs are registered, then its tree is built and joined. -/
def loadFile (files : Files) (dirs : List String) (r : Registry) (sofar : Option Tree) (path : String) :
    Registry × Except TypesError Tree :=
  match Spec.load files dirs path none with
  | .error e => (r, .error (.includes e))
  | .ok spec =>
    let names := structNames spec.data
    let unqualified := names.filter fun n => !QualifiedName.isQualified n
    if !unqualified.isEmpty then (r, .error (.rootTypes unqualified))
    else
      match registerStructs r names with
      | (r, some e) => (r, .error (.datatype e))
      | (r, none) => (r, do join r (← buildFile r spec.data) sofar)

def loadFiles (files : Files) (dirs : List String) (r : Registry) (sofar : Option Tree) :
    List String → Registry × Except TypesError (Option Tree)
  | [] => (r, .ok sofar)
  | path :: rest =>
    match loadFile files dirs r sofar path with
    | (r, .ok tree) => loadFiles files dirs r (some tree) rest
    | (r, .error e) => (r, .error e)

def checkProperties : Option Tree → Except TypesError (Option Tree)
  | none => .ok none
  | some t => if t.propertyOrphans.isEmpty then .ok (some t) else .error (.propertyOrphans t.propertyOrphans)

/-- **The type tree of a run**, if there are type files, and the registry with their structs; structs stay registered
when a later step fails. -/
def load (files : Files) (dirs paths : List String) (r : Registry) : Registry × Except TypesError (Option Tree) :=
  match loadFiles files dirs r none paths with
  | (r, .ok t) => (r, checkProperties t)
  | (r, .error e) => (r, .error e)

end TypeTree
end SignalCatalog
