import SignalCatalog.Tree.Expand
/-!
# Merging an overlay

An overlay is a tree of its own, merged into a base by qualified names.  A node that the base has takes over every field
that the overlay declares; any other is copied with its subtree below its parent, which is made if it is missing.
Placeholders of the overlay only connect and are passed over.
-/
namespace SignalCatalog

inductive OverlayError where
  | foreignRoot (fqn root : String)
  | node (error : NodeError)
  deriving Repr

def OverlayError.message : OverlayError → String
  | foreignRoot fqn root => "overlay node '" ++ fqn ++ "' is not below base root '" ++ root ++ "'"
  | node e => e.message

structure MergeStats where
  overwritten : Nat := 0
  added : Nat := 0
  skipped : Nat := 0
  deriving DecidableEq, Repr, Inhabited

/-! ## Completion -/

namespace Overlay

/-- Whether an entry, completed from the base, is of a kind with a datatype. -/
def isTyped (entry base : Mapping) : Bool :=
  let name := ((entry.get? "type").orElse fun _ => base.get? "type").bind Value.asString?
  (name.bind Kind.ofName?).any Kind.hasDatatype

/-- A key that an entry leaves out, taken over from the base. -/
def inherit (base entry : Mapping) (key : String) : Mapping :=
  if entry.has key then entry
  else
    match base.get? key with
    | some v => entry.put key v
    | none => entry

/-- **An entry with the keys that every payload needs**, taken over from the base where the entry leaves them out. -/
def completeEntry (base entry : Mapping) : Mapping :=
  let entry := inherit base (inherit base entry "type") "description"
  if isTyped entry base then inherit base entry "datatype" else entry

/-- **Every entry that refines a node of the base is completed from it.** -/
def complete (base : Tree) (overlay : Mapping) : Mapping :=
  overlay.map fun e =>
    match e.1.asString?, e.2 with
    | some fqn, .mapping entry =>
      match base.find? fqn with
      | some id => (e.1, .mapping (completeEntry (base.node id).payload.raw entry))
      | none => e
    | _, _ => e

end Overlay

/-! ## Payloads -/

namespace Payload

/-- The fields of a base that mean nothing for another kind are removed. -/
def dropForeign (old new : Kind) (m : Mapping) : Mapping :=
  if new = old then m
  else
    let m := if new.hasDatatype then m else Kind.datatypeKeys.foldl Mapping.remove m
    if new = .branch then m else Kind.branchKeys.foldl Mapping.remove m

/-- **A payload refined by every field that another declares**, its kind included. -/
def refine (r : Registry) (base overlay : Payload) : Except PayloadError Payload :=
  Payload.read r (.mapping (Mapping.extend (dropForeign base.kind overlay.kind base.raw) overlay.raw))

end Payload

/-! ## Trees -/

namespace Tree

/-- A step that changes the base and may fail; the changes made before a failure stay. -/
abbrev Merging := ExceptT OverlayError (StateM Tree)

/-- The payload of a node of the base refined by an overlay's. -/
def overwrite (r : Registry) (fqn : String) (id : NodeId) (p : Payload) : Merging Unit := do
  let t ← get
  match Payload.refine r (t.node id).payload p with
  | .ok merged => set (t.withForest (t.modify id fun n => n.declare merged))
  | .error cause => throw (.node { fqn, cause })

/-- The node of a qualified name in the base, made if it is missing. -/
def ensureParent (fqn : String) (parent : Option String) : Merging NodeId := do
  let t ← get
  match parent with
  | none => throw (.foreignRoot fqn t.rootName)
  | some parent =>
    match t.find? parent with
    | some id => return id
    | none =>
      match t.ensure parent with
      | (t, some id) => do
        set t
        return id
      | (_, none) => throw (.foreignRoot fqn t.rootName)

/-- **The nodes of an overlay merged into the base**, `grafted` being those copied with an ancestor already. -/
def mergeNodes (r : Registry) (overlay : Tree) (stats : MergeStats) (grafted : List NodeId) :
    List NodeId → Merging MergeStats
  | [] => return stats
  | id :: rest => do
    if grafted.contains id then mergeNodes r overlay stats grafted rest
    else
      let n := overlay.node id
      let fqn := overlay.fqn id
      if n.autogenerated then mergeNodes r overlay { stats with skipped := stats.skipped + 1 } grafted rest
      else
        match (← get).find? fqn with
        | some baseId => do
          overwrite r fqn baseId n.payload
          mergeNodes r overlay { stats with overwritten := stats.overwritten + 1 } grafted rest
        | none => do
          let parent ← ensureParent fqn (QualifiedName.parent? fqn)
          modify fun t => t.withForest (t.graft overlay.toForest id parent).1
          mergeNodes r overlay { stats with added := stats.added + 1 } (grafted ++ overlay.subtree id) rest

/-- The base after the merge, and what it did or why it stopped. -/
def merge (r : Registry) (base overlay : Tree) : Tree × Except OverlayError MergeStats :=
  let (outcome, t) := (mergeNodes r overlay {} [] overlay.preorder).run.run base
  (t, outcome)

end Tree
end SignalCatalog
