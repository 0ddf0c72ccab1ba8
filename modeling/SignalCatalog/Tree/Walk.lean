import SignalCatalog.Tree.Basic
/-!
# Walking with a stack

The pre-order of a subtree by a loop: the top of a stack is visited and its children are put on the stack in its place.
It does without recursion on the tree, and `Forest.subtree` is what it has to give.
-/
namespace SignalCatalog

/-- **A walk that is under way.** -/
structure Walk where
  /-- What is still to be visited; the top is the last. -/
  stack : List NodeId
  visited : List NodeId := []

namespace Walk

/-- **One turn**: the top of the stack is visited, and its children come in its place, the first of them on top.  There
is none when the stack is empty. -/
def turn? (f : Forest) (w : Walk) : Option Walk :=
  w.stack.getLast?.map fun id => { stack := w.stack.dropLast ++ (f.children id).reverse, visited := w.visited ++ [id] }

/-- **Turns until the stack is empty**; nothing comes out where they go on without end. -/
def finish (f : Forest) (w : Walk) : Option (List NodeId) :=
  match w.turn? f with
  | none => some w.visited
  | some w' => (finish (w := w')) f
partial_fixpoint

end Walk

namespace Forest

/-- **The nodes of a subtree** by a walk from its top. -/
def walk (f : Forest) (id : NodeId) : Option (List NodeId) := Walk.finish f { stack := [id] }

end Forest
end SignalCatalog
