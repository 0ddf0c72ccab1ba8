import SignalCatalog.Payload.Write
import SignalCatalog.QualifiedName
/-!
# Forests of nodes

Nodes live in one array and name each other by index.  A node has a list of children and a link to its parent; nodes
without a parent are the tops of the forest, and the subtrees below them do not meet.  `attach` and `detach` keep the
two views of an edge together.
-/
namespace SignalCatalog

abbrev NodeId := Nat

structure Node where
  name : String
  payload : Payload
  uuid : Option String := none
  /-- Made only to connect a node to the tree, without content of its own. -/
  autogenerated : Bool := false
  parent : Option NodeId := none
  children : List NodeId := []
  deriving Repr, Inhabited

namespace Node

def placeholder (name : String) : Node := { name, payload := .placeholder, autogenerated := true }

def alone (n : Node) : Node := { n with parent := none, children := [] }

def declare (n : Node) (p : Payload) : Node := { n with payload := p, autogenerated := false }

end Node

/-- **Nodes and the edges between them.** -/
structure Forest where
  nodes : Array Node := #[]
  deriving Repr, Inhabited

namespace Forest

def count (f : Forest) : Nat := f.nodes.size

/-- The node of an index; beyond the array, a nameless one without edges. -/
def node (f : Forest) (id : NodeId) : Node := f.nodes.getD id default

def modify (f : Forest) (id : NodeId) (g : Node → Node) : Forest := ⟨f.nodes.modify id g⟩

def children (f : Forest) (id : NodeId) : List NodeId := (f.node id).children

def parent? (f : Forest) (id : NodeId) : Option NodeId := (f.node id).parent

def add (f : Forest) (n : Node) : Forest × NodeId := (⟨f.nodes.push n⟩, f.nodes.size)

/-- **The edge to the parent is cut**, if there is one. -/
def detach (f : Forest) (id : NodeId) : Forest :=
  match f.parent? id with
  | none => f
  | some p =>
    (f.modify id fun n => { n with parent := none }).modify p fun n =>
      { n with children := n.children.filter (· != id) }

/-- **A node becomes the last child of a parent**, wherever it was before. -/
def attach (f : Forest) (parent id : NodeId) : Forest :=
  ((f.detach id).modify id fun n => { n with parent := some parent }).modify parent fun n =>
    { n with children := n.children ++ [id] }

/-- A new node as the last child of a parent. -/
def addChild (f : Forest) (parent : NodeId) (n : Node) : Forest × NodeId :=
  let (f, id) := f.add n
  (f.attach parent id, id)

def childNamed? (f : Forest) (parent : NodeId) (name : String) : Option NodeId :=
  (f.children parent).find? fun c => (f.node c).name == name

/-! ## Upwards -/

/-- A node and its ancestors, nearest first, at most `bound` of them above it. -/
def lineageWithin (f : Forest) : (bound : Nat) → NodeId → List NodeId
  | 0, id => [id]
  | bound + 1, id =>
    match f.parent? id with
    | some p => id :: f.lineageWithin bound p
    | none => [id]

/-- **A node and all its ancestors**, nearest first.  No chain of different nodes is longer than the array. -/
def lineage (f : Forest) (id : NodeId) : List NodeId := f.lineageWithin f.count id

def top (f : Forest) (id : NodeId) : NodeId := (f.lineage id).getLast?.getD id

def pathNames (f : Forest) (id : NodeId) : List String := ((f.lineage id).map fun i => (f.node i).name).reverse

/-- The path of a node with a separator of choice. -/
def pathWith (f : Forest) (separator : String) (id : NodeId) : String :=
  QualifiedName.joinWith separator (f.pathNames id)

/-- **The qualified name of a node.** -/
def fqn (f : Forest) (id : NodeId) : String := QualifiedName.ofSegments (f.pathNames id)

/-! ## Downwards -/

/-- The nodes at most `depth` edges below a node, parents before children. -/
def subtreeWithin (f : Forest) : (depth : Nat) → NodeId → List NodeId
  | 0, id => [id]
  | depth + 1, id => id :: (f.children id).flatMap (f.subtreeWithin depth)

/-- **The subtree of a node in pre-order**: the node, then the subtrees of its children in their order. -/
def subtree (f : Forest) (id : NodeId) : List NodeId := f.subtreeWithin f.count id

def size (f : Forest) (id : NodeId) : Nat := (f.subtree id).length

/-- The number of edges on the longest way down, `depth` at most. -/
def heightWithin (f : Forest) : (depth : Nat) → NodeId → Nat
  | 0, _ => 0
  | depth + 1, id => ((f.children id).map fun c => f.heightWithin depth c + 1).foldl max 0

def height (f : Forest) (id : NodeId) : Nat := f.heightWithin f.count id

/-- The node reached from `id` by the names of a path. -/
def descend? (f : Forest) (id : NodeId) : List String → Option NodeId
  | [] => some id
  | name :: rest => (f.childNamed? id name).bind fun c => f.descend? c rest

/-! ## Copies and order -/

/-- A copy of the subtree of `src` in `source`, at most `depth` edges deep, as the last child of `parent`. -/
def graftWithin (source : Forest) : (depth : Nat) → Forest → (src parent : NodeId) → Forest × NodeId
  | 0, f, src, parent => f.addChild parent (source.node src).alone
  | depth + 1, f, src, parent =>
    let (f, copy) := f.addChild parent (source.node src).alone
    ((source.children src).foldl (fun f c => (source.graftWithin depth f c copy).1) f, copy)

/-- **A copy of a subtree of another forest** as the last child of `parent`, and the copy's index. -/
def graft (f source : Forest) (src parent : NodeId) : Forest × NodeId := source.graftWithin source.count f src parent

/-- **A copy of a subtree of the same forest.** -/
def copySubtree (f : Forest) (src parent : NodeId) : Forest × NodeId := f.graft f src parent

/-- **Some children moved to the front**, in the order given; the others keep theirs. -/
def reorder (f : Forest) (parent : NodeId) (first : List NodeId) : Forest :=
  f.modify parent fun n =>
    { n with children := first.filter n.children.contains ++ n.children.filter fun c => !first.contains c }

end Forest
end SignalCatalog
