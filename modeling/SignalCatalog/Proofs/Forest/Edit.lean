import Mathlib.Data.List.Nodup
import SignalCatalog.Tree.Basic
/-!
# What an edit changes

Every edit of a forest is read back node by node: which nodes it touches, what becomes of their edges, and that all
others are as they were.
-/
namespace SignalCatalog
namespace Forest

variable {f : Forest} {x y p : Nat}

theorem node_of_count_le (h : f.count ≤ x) : f.node x = default := by
  unfold node count at *
  rw [Array.getD_eq_getD_getElem?, Array.getElem?_eq_none h]
  rfl

theorem parent?_of_count_le (h : f.count ≤ x) : f.parent? x = none := by
  rw [parent?, node_of_count_le h]
  rfl

theorem children_of_count_le (h : f.count ≤ x) : f.children x = [] := by
  rw [children, node_of_count_le h]
  rfl

theorem lt_count_of_parent? (h : f.parent? x = some p) : x < f.count := by
  by_contra hx
  rw [parent?_of_count_le (by omega)] at h
  cases h

theorem lt_count_of_mem_children (h : x ∈ f.children y) : y < f.count := by
  by_contra hy
  rw [children_of_count_le (by omega)] at h
  cases h

/-! ## Changing a node -/

@[simp] theorem count_modify (g : Node → Node) : (f.modify x g).count = f.count := Array.size_modify

theorem node_modify (g : Node → Node) :
    (f.modify x g).node y = if x = y ∧ y < f.count then g (f.node y) else f.node y := by
  simp only [node, modify, count, Array.getD_eq_getD_getElem?, Array.getElem?_modify]
  by_cases hy : y < f.nodes.size
  · by_cases hxy : x = y <;> simp [hxy, hy]
  · by_cases hxy : x = y <;> simp [hxy, hy]

theorem node_modify_self (g : Node → Node) (h : x < f.count) : (f.modify x g).node x = g (f.node x) := by
  rw [node_modify, if_pos ⟨rfl, h⟩]

theorem node_modify_ne (g : Node → Node) (h : y ≠ x) : (f.modify x g).node y = f.node y := by
  rw [node_modify, if_neg (by rintro ⟨rfl, -⟩; exact h rfl)]

theorem modify_eq_self {g : Node → Node} (h : g (f.node x) = f.node x) : f.modify x g = f := by
  refine congrArg Forest.mk (Array.ext (by simp) fun i hi hi' => ?_)
  rw [Array.getElem_modify]
  split
  · rename_i hx
    subst hx
    rwa [node, Array.getD_eq_getD_getElem?, Array.getElem?_eq_getElem hi'] at h
  · rfl

theorem field_modify {α : Type} {g : Node → Node} (field : Node → α) (h : ∀ n, field (g n) = field n) :
    field ((f.modify x g).node y) = field (f.node y) := by
  rw [node_modify]
  split
  · exact h _
  · rfl

/-! ## A new node -/

@[simp] theorem count_add (n : Node) : (f.add n).1.count = f.count + 1 := by simp [add, count]

@[simp] theorem add_snd (n : Node) : (f.add n).2 = f.count := rfl

theorem node_add (n : Node) : (f.add n).1.node x = if x = f.count then n else f.node x := by
  simp only [node, add, count, Array.getD_eq_getD_getElem?, Array.getElem?_push]
  split <;> rfl

/-! ## Edges -/

theorem detach_of_parent?_eq_none (h : f.parent? x = none) : f.detach x = f := by rw [detach, h]

@[simp] theorem count_detach : (f.detach x).count = f.count := by
  unfold detach
  cases f.parent? x <;> simp

/-- **Both ends of an edge are changed**: the parent link of the one, the child list of the other. -/
theorem node_relink (parent : Option NodeId) (l : List NodeId → List NodeId) (hx : x < f.count) (hp : p < f.count) :
    ((f.modify x fun n => { n with parent }).modify p fun n => { n with children := l n.children }).node y =
      { f.node y with
        parent := if y = x then parent else f.parent? y
        children := if y = p then l (f.children y) else f.children y } := by
  by_cases hyp : y = p
  · subst hyp
    rw [node_modify_self _ (by simpa using hp), if_pos rfl]
    by_cases hyx : y = x
    · subst hyx
      rw [node_modify_self _ hx, if_pos rfl]
      rfl
    · rw [node_modify_ne _ hyx, if_neg hyx]
      rfl
  · rw [node_modify_ne _ hyp, if_neg hyp]
    by_cases hyx : y = x
    · subst hyx
      rw [node_modify_self _ hx, if_pos rfl]
      rfl
    · rw [node_modify_ne _ hyx, if_neg hyx]
      rfl

/-- **The node loses its parent, the parent this child.** -/
theorem node_detach (h : f.parent? x = some p) (hp : p < f.count) : (f.detach x).node y =
    { f.node y with
      parent := if y = x then none else f.parent? y
      children := if y = p then (f.children y).filter (· != x) else f.children y } := by
  have hx := lt_count_of_parent? h
  rw [detach, h]
  exact node_relink none (List.filter (· != x)) hx hp

/-- **The node is the parent's last child**, if it had no parent before. -/
theorem node_attach (h : f.parent? x = none) (hx : x < f.count) (hp : p < f.count) : (f.attach p x).node y =
    { f.node y with
      parent := if y = x then some p else f.parent? y
      children := if y = p then f.children y ++ [x] else f.children y } := by
  rw [attach, detach_of_parent?_eq_none h]
  exact node_relink (some p) (· ++ [x]) hx hp

theorem field_detach {α : Type} {x y : Nat} (field : Node → α)
    (h : ∀ n parent children, field { n with parent, children } = field n) :
    field ((f.detach x).node y) = field (f.node y) := by
  rw [detach]
  split
  · rfl
  · exact (field_modify field fun n => h n _ _).trans (field_modify field fun n => h n _ _)

theorem field_attach {α : Type} {p x y : Nat} (field : Node → α)
    (h : ∀ n parent children, field { n with parent, children } = field n) :
    field ((f.attach p x).node y) = field (f.node y) := by
  rw [attach]
  refine (field_modify field fun n => h n _ _).trans ((field_modify field fun n => h n _ _).trans ?_)
  exact field_detach field h

@[simp] theorem count_attach : (f.attach p x).count = f.count := by simp [attach]

@[simp] theorem count_addChild (n : Node) : (f.addChild p n).1.count = f.count + 1 := by simp [addChild]

@[simp] theorem addChild_snd (n : Node) : (f.addChild p n).2 = f.count := rfl

/-- **A new child**: only it and the last entry of its parent's children are new. -/
theorem node_addChild {n : Node} (hp : p < f.count) (hn : n.parent = none) (hc : n.children = []) :
    (f.addChild p n).1.node y =
      if y = f.count then { n with parent := some p }
      else if y = p then { f.node y with children := f.children y ++ [f.count] }
      else f.node y := by
  have hnew : (f.add n).1.parent? f.count = none := by rw [parent?, node_add, if_pos rfl, hn]
  rw [addChild]
  dsimp only [add_snd]
  rw [node_attach hnew (by simp) (by simp; omega), parent?, children, node_add]
  by_cases hy : y = f.count
  · have hyp : y ≠ p := by omega
    rw [if_pos hy, if_pos hy, if_neg hyp, if_pos hy, hc]
  · rw [if_neg hy, if_neg hy]
    by_cases hyp : y = p
    · rw [if_pos hyp, if_pos hyp, if_neg hy]
      rfl
    · rw [if_neg hyp, if_neg hyp, if_neg hy]

end Forest
end SignalCatalog
