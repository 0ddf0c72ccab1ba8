import SignalCatalog.Tree.Forest
/-!
# Trees

A forest with one of its nodes as the root.  A node is found by its qualified name, which begins with the name of the
root; nodes that are not below the root stay in the forest but belong to the tree no more.
-/
namespace SignalCatalog

structure Tree extends Forest where
  root : NodeId
  deriving Repr, Inhabited

namespace Tree

def withForest (t : Tree) (f : Forest) : Tree := { t with toForest := f }

def single (name : String) (p : Payload) : Tree := { nodes := #[{ name, payload := p }], root := 0 }

def rootName (t : Tree) : String := (t.node t.root).name

def isAttached (t : Tree) (id : NodeId) : Bool := t.top id == t.root

/-- **The nodes of the tree**, parents before children. -/
def preorder (t : Tree) : List NodeId := t.subtree t.root

def nodeCount (t : Tree) : Nat := t.preorder.length

/-- **The node of a qualified name.** -/
def find? (t : Tree) (fqn : String) : Option NodeId :=
  match QualifiedName.segments fqn with
  | [] => none
  | first :: rest => if first = t.rootName then t.descend? t.root rest else none

/-- The node at the names below `id`, with placeholders made for those that are missing. -/
def ensureBelow (t : Tree) (id : NodeId) : List String → Tree × NodeId
  | [] => (t, id)
  | name :: rest =>
    match t.childNamed? id name with
    | some c => t.ensureBelow c rest
    | none =>
      let (f, c) := t.addChild id (.placeholder name)
      (t.withForest f).ensureBelow c rest

/-- **The node of a qualified name, made if it is missing**; nothing if the name does not begin with that of
the root. -/
def ensure (t : Tree) (fqn : String) : Tree × Option NodeId :=
  match QualifiedName.segments fqn with
  | [] => (t, none)
  | first :: rest =>
    if first = t.rootName then
      let (t, id) := t.ensureBelow t.root rest
      (t, some id)
    else (t, none)

/-- The nodes marked for removal; the root is never removed. -/
def marked (t : Tree) : List NodeId := t.preorder.filter fun id => id != t.root && (t.node id).payload.common.delete

/-- **Marked nodes are cut off with all below them**; the answer counts the nodes that went. -/
def prune (t : Tree) : Tree × Nat :=
  let t' := t.withForest (t.marked.foldl Forest.detach t.toForest)
  (t', t.nodeCount - t'.nodeCount)

def flatEntry (t : Tree) (withExtra : Bool) (id : NodeId) : Mapping :=
  let n := t.node id
  match n.uuid with
  | some uuid => Mapping.put (n.payload.view withExtra) "uuid" (.string uuid)
  | none => n.payload.view withExtra

/-- **The flat view**: payloads by qualified name, in pre-order. -/
def flat (t : Tree) (withExtra : Bool) : Mapping :=
  Mapping.ofPairs (t.preorder.map fun id => (.string (t.fqn id), .mapping (t.flatEntry withExtra id)))

def outlineLine (n : Node) (depth : Nat) : String :=
  String.ofList (List.replicate (2 * depth) ' ') ++ n.name ++ " (" ++ n.payload.kind.name ++
    (match n.payload.datatype? with
      | some datatype => ": " ++ datatype
      | none => "") ++ ")\n"

/-- The lines of a subtree, `bound` levels at most. -/
def outlineWithin (f : Forest) : (bound depth : Nat) → NodeId → String
  | 0, depth, id => outlineLine (f.node id) depth
  | bound + 1, depth, id =>
    outlineLine (f.node id) depth ++ String.join ((f.children id).map (outlineWithin f bound (depth + 1)))

/-- **The outline**: one line a node, indented by depth. -/
def outline (t : Tree) : String := outlineWithin t.toForest t.count 0 t.root

end Tree
end SignalCatalog
