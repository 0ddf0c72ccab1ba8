import SignalCatalog.Tree.Basic
/-!
# Policies

Checks of a finished tree.  Naming and further attributes are matters of policy: they are ignored, reported or fatal as
the run says.  That every node stands below a parent that can hold it is always required.
-/
namespace SignalCatalog

/-- How strictly a policy is held. -/
inductive CheckLevel where
  | ignore
  | warn
  | fail
  deriving DecidableEq, Repr

/-- A node that offends against a policy. -/
structure Violation where
  path : String
  reason : String
  deriving DecidableEq, Repr

def Violation.message (v : Violation) : String := "'" ++ v.path ++ "' (" ++ v.reason ++ ")"

inductive PolicyError where
  | nameViolations (violations : List Violation)
  | extraAttributes (violations : List Violation)
  | invalidParents (names : List String)
  deriving DecidableEq, Repr

def PolicyError.message : PolicyError → String
  | nameViolations vs => "name violations detected: " ++ ", ".intercalate (vs.map Violation.message)
  | extraAttributes vs => "unknown attributes detected: " ++ ", ".intercalate (vs.map Violation.message)
  | invalidParents names => "invalid parent for: " ++ ", ".intercalate names

namespace Tree

def isUpperLetter (c : Char) : Bool := 'A' ≤ c && c ≤ 'Z'

def isAsciiWordChar (c : Char) : Bool := isUpperLetter c || ('a' ≤ c && c ≤ 'z') || ('0' ≤ c && c ≤ '9')

/-- **CamelCase**: ASCII letters and digits, a capital letter first. -/
def isCamelCase (name : String) : Bool :=
  match name.toList with
  | [] => false
  | c :: r => isUpperLetter c && r.all isAsciiWordChar

/-- Whether a name begins with `Is`. -/
def beginsWithIs (name : String) : Bool := "Is".toList.isPrefixOf name.toList

def namingFaults (n : Node) : List String :=
  (if isCamelCase n.name then [] else ["not CamelCase"]) ++
    (if n.payload.datatype? = some "boolean" && !beginsWithIs n.name then ["not starting with 'Is'"] else [])

/-- **Names against the style**, node by node. -/
def namingViolations (t : Tree) : List Violation :=
  t.preorder.flatMap fun id => (namingFaults (t.node id)).map fun reason => { path := t.fqn id, reason }

/-- **Further attributes that are not allowed**, node by node. -/
def extraViolations (t : Tree) (allowed : List String) : List Violation :=
  t.preorder.flatMap fun id =>
    ((t.node id).payload.extraNames.filter fun name => !allowed.contains name).map fun name =>
      { path := t.fqn id, reason := name }

def parentKind : Kind → Kind
  | .property => .struct
  | _ => .branch

/-- **Nodes below a parent that cannot hold them.** -/
def invalidParents (t : Tree) : List String :=
  (t.preorder.filter fun id =>
    (t.parent? id).any fun p => (t.node p).payload.kind != parentKind (t.node id).payload.kind).map t.fqn

/-- **Properties that are not directly below a struct.** -/
def propertyOrphans (t : Tree) : List String :=
  (t.preorder.filter fun id =>
    (t.node id).payload.kind == .property && (t.parent? id).all fun p => (t.node p).payload.kind != .struct).map t.fqn

def enforce (level : CheckLevel) (violations : List Violation) (error : List Violation → PolicyError) :
    Except PolicyError Unit :=
  if level = .fail ∧ violations ≠ [] then .error (error violations) else .ok ()

def checkNaming (t : Tree) (level : CheckLevel) : Except PolicyError Unit :=
  enforce level t.namingViolations .nameViolations

def checkExtra (t : Tree) (allowed : List String) (level : CheckLevel) : Except PolicyError Unit :=
  enforce level (t.extraViolations allowed) .extraAttributes

def checkParents (t : Tree) : Except PolicyError Unit :=
  if t.invalidParents = [] then .ok () else .error (.invalidParents t.invalidParents)

end Tree
end SignalCatalog
