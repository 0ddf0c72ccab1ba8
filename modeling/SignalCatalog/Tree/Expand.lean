import SignalCatalog.Tree.Build
/-!
# Expanding instances

A branch with levels of instances becomes a subtree with a branch for every instance.  Its children marked `instantiate`
are the template: they are cut off and copied below every innermost instance.  A node that is already at the place of an
instance or of a copy stays and keeps its payload, unless it is a placeholder.

Copies may carry instances of their own, so passes over the tree are repeated until no reachable node does.  A pass
settles every branch that was pending at its start, and what is pending afterwards lies deeper; the passes need not come
to an end.
-/
namespace SignalCatalog

inductive ExpansionError where
  | invalidEntry (error : InvalidEntry)
  | node (error : NodeError)
  deriving Repr

def ExpansionError.message : ExpansionError → String
  | invalidEntry e => "invalid instance entry '" ++ e.entry ++ "': " ++ e.fault.reason
  | node e => e.message

structure ExpansionStats where
  iterations : Nat := 0
  expanded : Nat := 0
  created : Nat := 0
  deriving DecidableEq, Repr, Inhabited

namespace Forest

/-- **Template subtrees merged below a target**, at most `depth` levels of nodes that are there already.  A node that is
there is kept, a placeholder takes the template's payload, anything else is copied; afterwards the template's order
comes first. -/
def spliceWithin : (depth : Nat) → Forest → (templates : List NodeId) → (target : NodeId) → Forest
  | 0, f, _, _ => f
  | depth + 1, f, templates, target =>
    let step (acc : Forest × List NodeId) (template : NodeId) : Forest × List NodeId :=
      let f := acc.1
      match f.childNamed? target (f.node template).name with
      | some existing =>
        let f :=
          if (f.node existing).autogenerated then f.modify existing fun n => n.declare (f.node template).payload else f
        (f.spliceWithin depth (f.children template) existing, acc.2 ++ [existing])
      | none =>
        let (f, copy) := f.copySubtree template target
        (f, acc.2 ++ [copy])
    let (f, ordered) := templates.foldl step (f, [])
    f.reorder target ordered

/-- **Template subtrees merged below a target.** -/
def splice (f : Forest) (templates : List NodeId) (target : NodeId) : Forest :=
  f.spliceWithin (f.count + 1) templates target

end Forest

namespace Tree

/-- A step that changes the tree and may fail; the changes made before a failure stay. -/
abbrev Expanding := ExceptT ExpansionError (StateM Tree)

def change (g : Forest → Forest) : Expanding Unit := modify fun t => t.withForest (g t.toForest)

/-- **The node of one instance**: a new branch, or the branch that is there. -/
def instanceNode (proto : Payload) (parent : NodeId) (name : String) : Expanding NodeId := do
  let t ← get
  match t.childNamed? parent name with
  | none =>
    let (f, id) := t.addChild parent { name, payload := proto }
    set (t.withForest f)
    return id
  | some id =>
    let n := t.node id
    if n.payload.kind ≠ .branch then
      throw (.node { fqn := t.fqn id, cause := .invariant (.instanceCollision name n.payload.kind) })
    if n.autogenerated then change fun f => f.modify id fun n => n.declare proto
    return id

def instanceRow (proto : Payload) (parent : NodeId) : List String → Expanding (List NodeId)
  | [] => return []
  | name :: rest => do
    let id ← instanceNode proto parent name
    return id :: (← instanceRow proto parent rest)

/-- One level: the instances of every node of the level above, first among their siblings. -/
def instanceLevel (proto : Payload) (names : List String) : List NodeId → Expanding (List NodeId)
  | [] => return []
  | parent :: rest => do
    let row ← instanceRow proto parent names
    change fun f => f.reorder parent row
    return row ++ (← instanceLevel proto names rest)

/-- All levels, from a frontier inwards; the answer is the innermost one. -/
def instanceLevels (proto : Payload) : List (List String) → List NodeId → Expanding (List NodeId)
  | [], frontier => return frontier
  | names :: rest, frontier => do instanceLevels proto rest (← instanceLevel proto names frontier)

def levelNames (p : Payload) : Except ExpansionError (List (List String)) :=
  p.instances.mapM fun level =>
    match level.names with
    | .ok names => .ok names
    | .error e => .error (.invalidEntry e)

/-- **The template of a branch**: the children that are instantiated, except those at the place of an instance. -/
def templates (t : Tree) (id : NodeId) (firstLevel : List String) : List NodeId :=
  (t.children id).filter fun c =>
    (t.node c).payload.common.instantiate && !firstLevel.contains (t.node c).name

/-- **Expands one branch**; the answer is the number of nodes that are new. -/
def expandNode (id : NodeId) : Expanding Nat := do
  let levels ← levelNames ((← get).node id).payload
  let template := (← get).templates id (levels.head?.getD [])
  change fun f => template.foldl Forest.detach f
  let proto := ((← get).node id).payload.clearInstances
  let before := (← get).nodeCount
  let leaves ← instanceLevels proto levels [id]
  change fun f => leaves.foldl (fun f leaf => f.splice template leaf) f
  change fun f => f.modify id fun n => { n with payload := n.payload.clearInstances }
  return (← get).nodeCount - before

def pending (t : Tree) : List NodeId := t.preorder.filter fun id => !(t.node id).payload.instances.isEmpty

/-- **One pass** over the nodes that were pending at its start; those cut off since are left to their copies. -/
def expandPass (stats : ExpansionStats) : List NodeId → Expanding ExpansionStats
  | [] => return stats
  | id :: rest => do
    if (← get).isAttached id then
      let created ← expandNode id
      expandPass { stats with expanded := stats.expanded + 1, created := stats.created + created } rest
    else expandPass stats rest

/-- **Passes until nothing is pending**; nothing comes out where the passes go on without end. -/
def settle (stats : ExpansionStats) (t : Tree) : Option (Tree × Except ExpansionError ExpansionStats) :=
  match t.pending with
  | [] => some (t, .ok stats)
  | ids =>
    match (expandPass { stats with iterations := stats.iterations + 1 } ids).run.run t with
    | (.ok stats, t) => (settle (t := t)) stats
    | (.error e, t) => some (t, .error e)
partial_fixpoint

/-- **Expands all instances**: the tree after the expansion, and what it did or why it stopped, if it ends. -/
def expand (t : Tree) : Option (Tree × Except ExpansionError ExpansionStats) := settle {} t

end Tree
end SignalCatalog
