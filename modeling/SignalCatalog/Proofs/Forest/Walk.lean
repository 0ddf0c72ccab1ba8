import Mathlib.Algebra.GroupWithZero.Nat
import SignalCatalog.Proofs.Forest.Check
import SignalCatalog.Tree.Walk
/-!
# A walk gives the pre-order

What a walk has visited and the subtrees of what lies on its stack, the top first, are one list from the first turn to
the last: a turn takes a node from the head of the second part to the end of the first.  So the walk ends, and with the
pre-order of its start.
-/
namespace SignalCatalog

namespace Forest

variable {f : Forest} {a : Nat}

/-- **What the pre-order of a subtree is**: it begins with the top and goes on with the pre-orders of the children, it
has every node of the subtree once, and none before its parent. -/
structure Preordered (f : Forest) (a : Nat) (nodes : List Nat) : Prop where
  recursive : nodes = a :: (f.children a).flatMap f.subtree
  mem : ∀ x, x ∈ nodes ↔ f.Below a x
  once : ∀ x ∈ nodes, nodes.count x = 1
  parent_before : ∀ before c after, nodes = before ++ c :: after → c ≠ a → ∃ p ∈ before, f.parent? c = some p

theorem Linked.size_eq_add (hf : f.Linked) : f.size a = 1 + ((f.children a).map f.size).sum := by
  rw [size, hf.subtree_eq, List.length_cons, List.length_flatMap, Nat.add_comm]
  rfl

theorem Linked.preordered_subtree (hf : f.Linked) (hn : f.ChildrenNodup) : f.Preordered a (f.subtree a) where
  recursive := hf.subtree_eq
  mem := fun _ => hf.mem_subtree
  once := fun _ hx => List.count_eq_one_of_mem (hf.nodup_subtree hn) hx
  parent_before := by
    intro before c after hsplit hne
    have hc : f.Below a c := hf.mem_subtree.1 (by simp [hsplit])
    obtain ⟨p, hp, hparent⟩ := hc.exists_parent hne
    have hpc : p ≠ c := by
      rintro rfl
      exact hf.not_below_parent hparent .refl
    exact ⟨p, hf.mem_before_of_below hn hsplit hp (.down .refl hparent) hpc, hparent⟩

end Forest

namespace Walk

variable {f : Forest} {w w' : Walk}

/-- **What a walk has ahead of it**: the subtrees of what lies on its stack, from the top down. -/
def ahead (f : Forest) (w : Walk) : List NodeId := w.stack.reverse.flatMap f.subtree

theorem ahead_of_turn?_eq_none (h : w.turn? f = none) : w.ahead f = [] := by
  rw [turn?, Option.map_eq_none_iff, List.getLast?_eq_none_iff] at h
  rw [ahead, h]
  rfl

/-- **A turn visits the first node ahead** and leaves the others ahead as they are. -/
theorem ahead_turn (hf : f.Linked) (h : w.turn? f = some w') :
    ∃ id, w'.visited = w.visited ++ [id] ∧ w.ahead f = id :: w'.ahead f := by
  obtain ⟨id, htop, rfl⟩ := Option.map_eq_some_iff.1 h
  have hstack : w.stack.reverse = id :: w.stack.dropLast.reverse := by
    rw [← List.reverse_concat, List.dropLast_append_getLast? id htop]
  refine ⟨id, rfl, ?_⟩
  calc
    w.ahead f = f.subtree id ++ w.stack.dropLast.reverse.flatMap f.subtree := by
      rw [ahead, hstack, List.flatMap_cons]
    _ = id :: ((f.children id).flatMap f.subtree ++ w.stack.dropLast.reverse.flatMap f.subtree) := by
      rw [hf.subtree_eq, List.cons_append]
    _ = id :: (w.stack.dropLast ++ (f.children id).reverse).reverse.flatMap f.subtree := by
      rw [List.reverse_append, List.reverse_reverse, List.flatMap_append]

/-- **A walk ends**, and what was ahead of it has been visited in that order. -/
theorem finish_eq (hf : f.Linked) (w : Walk) : w.finish f = some (w.visited ++ w.ahead f) := by
  -- the stack may grow, but every turn takes one node off what is ahead
  induction hahead : w.ahead f generalizing w with
  | nil =>
    cases hturn : w.turn? f with
    | none => rw [finish, hturn, List.append_nil]
    | some w' =>
      obtain ⟨id, -, hfirst⟩ := ahead_turn hf hturn
      exact absurd (hfirst.symm.trans hahead) (List.cons_ne_nil _ _)
  | cons id rest ih =>
    cases hturn : w.turn? f with
    | none => exact absurd (hahead.symm.trans (ahead_of_turn?_eq_none hturn)) (List.cons_ne_nil _ _)
    | some w' =>
      obtain ⟨id', hvisited, hfirst⟩ := ahead_turn hf hturn
      obtain ⟨rfl, hrest⟩ := List.cons.inj (hahead.symm.trans hfirst)
      rw [finish, hturn]
      dsimp only
      rw [ih w' hrest.symm, hvisited, List.append_assoc, List.singleton_append]

end Walk

theorem Forest.Linked.walk_eq {f : Forest} (hf : f.Linked) (a : NodeId) : f.walk a = some (f.subtree a) := by
  rw [walk, Walk.finish_eq hf, Walk.ahead, List.reverse_singleton, List.flatMap_singleton, List.nil_append]

namespace Tree

variable {t : Tree}

/-- **Walking with a stack ends with the pre-order**, from every node of a well-formed tree: the node, then the
pre-orders of its children in their order, with every node below it once and behind its parent.  A subtree has one node
more than the subtrees of the children together. -/
theorem walk_preordered (ht : t.WellFormed) (id : NodeId) :
    t.walk id = some (t.subtree id) ∧ t.Preordered id (t.subtree id) ∧
    t.size id = 1 + ((t.children id).map t.size).sum :=
  ⟨ht.linked.walk_eq id, ht.linked.preordered_subtree ht.children_nodup, ht.linked.size_eq_add⟩

def rearranged : Tree where
  nodes := #[
    { name := "Vehicle", payload := .branch "vehicle", children := [3, 1] },
    { name := "Cabin", payload := .branch "cabin", parent := some 0, children := [5, 2] },
    { name := "Left", payload := .branch "left door", parent := some 1, children := [4] },
    { name := "Chassis", payload := .branch "chassis", parent := some 0 },
    { name := "Lock", payload := .branch "lock", parent := some 2 },
    { name := "Right", payload := .branch "right door", parent := some 1, children := [6] },
    { name := "Lock", payload := .branch "lock", parent := some 5 },
    { name := "Seat", payload := .branch "seat", children := [8] },
    { name := "Belt", payload := .branch "belt", parent := some 7 }]
  root := 0

theorem walk_rearranged : rearranged.WellFormed ∧ rearranged.walk 0 = some [0, 3, 1, 5, 6, 2, 4] ∧
    rearranged.Preordered 0 [0, 3, 1, 5, 6, 2, 4] ∧
    rearranged.size 0 = 1 + (rearranged.size 3 + rearranged.size 1) := by
  have ht : rearranged.WellFormed := wellFormed_of_isOrdered (by decide)
  have hsubtree : rearranged.subtree 0 = [0, 3, 1, 5, 6, 2, 4] := by decide
  obtain ⟨hwalk, hpreordered, hsize⟩ := walk_preordered ht 0
  rw [hsubtree] at hwalk hpreordered
  exact ⟨ht, hwalk, hpreordered, hsize⟩

end Tree
end SignalCatalog
