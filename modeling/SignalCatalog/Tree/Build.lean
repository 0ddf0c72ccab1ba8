import SignalCatalog.Payload.Read
import SignalCatalog.Tree.Basic
/-!
# Building a tree

A tree is built from payloads by qualified name, in whatever order they come: a node is attached when its parent is
there, and waits for its parent otherwise.  Nodes whose parent never comes are orphans; the mode of the build decides
about them.
-/
namespace SignalCatalog

/-- **What happens to nodes whose parent is not declared.** -/
inductive BuildMode where
  /-- They stay detached and are given back. -/
  | strict
  /-- They are connected to their nearest ancestor in the tree through placeholders; without one the build fails. -/
  | connect
  /-- Missing ancestors are made at once, the root included. -/
  | overlay
  deriving DecidableEq, Repr

inductive BuildError where
  | noRoots
  | multipleRoots (names : List String)
  | node (error : NodeError)
  | unresolvedOrphans (names : List String)
  deriving Repr

def BuildError.message : BuildError → String
  | noRoots => "no root node found"
  | multipleRoots names => "multiple root nodes: " ++ ", ".intercalate names
  | node error => error.message
  | unresolvedOrphans names => "orphan nodes could not be attached: " ++ ", ".intercalate names

/-- A tree and the orphans beside it, in the order of their declaration. -/
structure BuildOutcome where
  tree : Tree
  orphans : List (String × NodeId)
  deriving Repr

/-- **A build under way**: the nodes by name, in the order they were made, and the nodes that wait for a parent, with
its name. -/
structure Builder where
  forest : Forest := {}
  placed : List (String × NodeId) := []
  waiting : List (String × NodeId) := []
  deriving Repr, Inhabited

namespace Builder

def find? (b : Builder) (fqn : String) : Option NodeId := (b.placed.find? fun e => e.1 == fqn).map (·.2)

def place (b : Builder) (fqn : String) (n : Node) : Builder × NodeId :=
  let (forest, id) := b.forest.add n
  ({ b with forest, placed := b.placed ++ [(fqn, id)] }, id)

def attach (b : Builder) (parent id : NodeId) : Builder := { b with forest := b.forest.attach parent id }

/-- The nodes that wait for a name become children of its node. -/
def adopt (b : Builder) (fqn : String) (id : NodeId) : Builder :=
  let children := (b.waiting.filter fun w => w.1 == fqn).map (·.2)
  { b with
    forest := children.foldl (fun f c => f.attach id c) b.forest
    waiting := b.waiting.filter fun w => w.1 != fqn }

def placeholder (b : Builder) (fqn : String) : Builder × NodeId := b.place fqn (.placeholder (QualifiedName.last fqn))

/-- **Placeholders for missing ancestors**, nearest first, up to one that is there; `id` goes below the
first of them. -/
def connectUp (b : Builder) (id : NodeId) : List String → Builder
  | [] => b
  | path :: rest =>
    match b.find? path with
    | some parent => b.attach parent id
    | none =>
      let (b, parent) := b.placeholder path
      (b.connectUp parent rest).attach parent id

def addNew (b : Builder) (mode : BuildMode) (fqn : String) (p : Payload) : Builder :=
  let (b, id) := b.place fqn { name := QualifiedName.last fqn, payload := p }
  let b :=
    match QualifiedName.parent? fqn with
    | none => b
    | some parent =>
      match b.find? parent, mode with
      | some parentId, _ => b.attach parentId id
      | none, .overlay => b.connectUp id (QualifiedName.ancestors fqn)
      | none, _ => { b with waiting := b.waiting ++ [(parent, id)] }
  b.adopt fqn id

/-- **A declared node**: a new one, or the placeholder that is there already. -/
def add (b : Builder) (mode : BuildMode) (fqn : String) (p : Payload) : Builder :=
  match b.find? fqn with
  | some id => { b with forest := b.forest.modify id fun n => n.declare p }
  | none => b.addNew mode fqn p

/-- The nodes without a parent, in the order they were made. -/
def unattached (b : Builder) : List (String × NodeId) := b.placed.filter fun e => (b.forest.parent? e.2).isNone

/-- The first ancestor that is there, and the names between, nearest first. -/
def anchor? (b : Builder) : List String → Option (NodeId × List String)
  | [] => none
  | path :: rest =>
    match b.find? path with
    | some id => some (id, [])
    | none => (b.anchor? rest).map fun a => (a.1, path :: a.2)

/-- Placeholders at names given from the outermost, each below the one before, and the innermost of them. -/
def extendDown (b : Builder) (parent : NodeId) : List String → Builder × NodeId
  | [] => (b, parent)
  | path :: rest =>
    let (b, id) := b.placeholder path
    (b.attach parent id).extendDown id rest

/-- **Orphans connected to the tree**, and the names of those that have no ancestor in it. -/
def connectOrphans (b : Builder) (root : NodeId) : List (String × NodeId) → Builder × List String
  | [] => (b, [])
  | (fqn, id) :: rest =>
    match b.anchor? (QualifiedName.ancestors fqn) with
    | some (anchor, missing) =>
      if b.forest.top anchor = root then
        let (b, parent) := b.extendDown anchor missing.reverse
        (b.attach parent id).connectOrphans root rest
      else
        let (b, unresolved) := b.connectOrphans root rest
        (b, fqn :: unresolved)
    | none =>
      let (b, unresolved) := b.connectOrphans root rest
      (b, fqn :: unresolved)

def byDepth (orphans : List (String × NodeId)) : List (String × NodeId) :=
  orphans.mergeSort fun a b => decide (QualifiedName.depth a.1 ≤ QualifiedName.depth b.1)

def addAll (r : Registry) (mode : BuildMode) (b : Builder) : Mapping → Except BuildError Builder
  | [] => .ok b
  | (key, value) :: rest => do
    match key.asString? with
    | none => throw (.node { fqn := key.inspect, cause := .invalidField "name" .nameNotString })
    | some fqn =>
      match Payload.read r value with
      | .error cause => throw (.node { fqn, cause })
      | .ok p => addAll r mode (b.add mode fqn p) rest

def finish (b : Builder) (mode : BuildMode) : Except BuildError BuildOutcome := do
  let roots := b.unattached.filter fun e => !QualifiedName.isQualified e.1
  let orphans := b.unattached.filter fun e => QualifiedName.isQualified e.1
  match roots with
  | [] => throw .noRoots
  | [(_, root)] =>
    match mode with
    | .connect =>
      let (b, unresolved) := b.connectOrphans root (byDepth orphans)
      if !unresolved.isEmpty then throw (.unresolvedOrphans unresolved)
      return { tree := { b.forest with root }, orphans := [] }
    | .strict => return { tree := (Tree.prune { b.forest with root }).1, orphans }
    | .overlay => return { tree := { b.forest with root }, orphans }
  | many => throw (.multipleRoots (many.map (·.1)))

end Builder

/-- **The tree of payloads by qualified name.**  A strict build removes the nodes marked for it; otherwise marks may
still be meant for nodes that an expansion or a merge will make. -/
def build (r : Registry) (mode : BuildMode) (data : Mapping) : Except BuildError BuildOutcome := do
  (← Builder.addAll r mode {} data).finish mode

end SignalCatalog
