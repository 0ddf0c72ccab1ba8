import Mathlib.Algebra.GroupWithZero.Nat
import SignalCatalog.Proofs.Forest.Named
import SignalCatalog.Tree.Merge
/-!
# What a merge has to copy

The overlay nodes that the base lacks come in whole subtrees, each below the topmost node of its own; the placeholders
among them come along.
-/
namespace SignalCatalog
namespace Tree

/-- **An overlay node of its own that the base has.** -/
def refines (b o : Tree) (y : NodeId) : Bool := !(o.node y).autogenerated && (b.find? (o.fqn y)).isSome

/-- **An overlay node of its own that the base lacks.** -/
def isNew (b o : Tree) (y : NodeId) : Bool := !(o.node y).autogenerated && (b.find? (o.fqn y)).isNone

/-- An overlay node at or below one that is new. -/
def comesAlong (b o : Tree) (y : NodeId) : Bool := o.preorder.any fun z => isNew b o z && (o.subtree z).contains y

/-- A placeholder of the overlay that leaves nothing in the base. -/
def isSkipped (b o : Tree) (y : NodeId) : Bool := (o.node y).autogenerated && !comesAlong b o y

/-- A new node with no new node above it. -/
def isGraftTop (b o : Tree) (y : NodeId) : Bool :=
  isNew b o y && o.preorder.all fun z => !(isNew b o z && z != y && (o.subtree z).contains y)

/-- **The tops of the subtrees that are copied.** -/
def graftTops (b o : Tree) : List NodeId := o.preorder.filter (isGraftTop b o)

/-- **A base and an overlay that can be merged by names**: every node of either is found by its own, and the overlay
lists none twice. -/
structure Mergeable (b o : Tree) : Prop where
  base : b.Rooted
  overlay : o.WellFormed
  base_found : b.SelfFound
  overlay_found : o.SelfFound

structure Aligned (b o : Tree) : Prop extends Mergeable b o where
  same_name : o.rootName = b.rootName

variable {b o : Tree} {y z id : Nat} {q s : List String} {done rest : List Nat}

theorem contents_append_eq_none (h : b.contents q = none) (s : List String) : b.contents (q ++ s) = none := by
  rw [contents, Forest.content?, Option.map_eq_none_iff] at h ⊢
  rw [Forest.descend?_append, h, Option.bind_none]

namespace Aligned

variable (h : Aligned b o)
include h

theorem find?_base (hy : o.Route o.root q y) : b.find? (o.fqn y) = b.descend? b.root q :=
  find?_of_segments (h.same_name ▸ h.overlay_found.segments_fqn h.overlay.toRooted hy)

theorem refines_iff (hy : o.Route o.root q y) :
    refines b o y = true ↔ (o.node y).autogenerated = false ∧ b.contents q ≠ none := by
  rw [refines, h.find?_base hy, contents, Forest.content?]
  cases b.descend? b.root q <;> simp

theorem isNew_iff (hy : o.Route o.root q y) : isNew b o y = true ↔ (o.node y).autogenerated = false ∧
    b.contents q = none := by
  rw [isNew, h.find?_base hy, contents, Forest.content?]
  cases b.descend? b.root q <;> simp

theorem comesAlong_iff : comesAlong b o y = true ↔ ∃ z ∈ o.preorder, isNew b o z = true ∧ o.Below z y := by
  rw [comesAlong, List.any_eq_true]
  simp only [Bool.and_eq_true, List.contains_iff_mem, h.overlay.linked.mem_subtree]

theorem isGraftTop_iff : isGraftTop b o y = true ↔
    isNew b o y = true ∧ ∀ z ∈ o.preorder, isNew b o z = true → o.Below z y → z = y := by
  rw [isGraftTop, Bool.and_eq_true, List.all_eq_true]
  refine and_congr_right fun _ => forall₂_congr fun z _ => ?_
  rw [← h.overlay.linked.mem_subtree, Bool.not_eq_true', Bool.and_eq_false_iff,
    Bool.and_eq_false_iff, bne_eq_false_iff_eq, ← Bool.not_eq_true, ← Bool.not_eq_true, List.contains_iff_mem]
  by_cases hz : isNew b o z = true <;> by_cases hm : y ∈ o.subtree z <;> simp [hz, hm]

theorem contents_eq_none (hz : o.Route o.root q z) (hnew : isNew b o z = true) (s : List String) :
    b.contents (q ++ s) = none :=
  contents_append_eq_none ((h.isNew_iff hz).1 hnew).2 s

end Aligned

/-! ## The order of the overlay -/

section Order

variable (ho : o.WellFormed) (hsplit : o.preorder = done ++ id :: rest)
include ho hsplit

theorem not_mem_done : id ∉ done := by
  intro hm
  have hnodup := ho.nodup_preorder
  rw [hsplit, List.nodup_append] at hnodup
  exact hnodup.2.2 id hm id List.mem_cons_self rfl

theorem not_below_done (hz : z ∈ done) : ¬ o.Below id z := by
  have hpair : o.preorder.Pairwise fun x y => ¬ o.Below y x := ho.linked.pairwise_subtree ho.children_nodup
  rw [hsplit, List.pairwise_append] at hpair
  exact hpair.2.2 z hz id List.mem_cons_self

theorem mem_done_of_below (hz : z ∈ o.preorder) (hbelow : o.Below z id) (hne : z ≠ id) : z ∈ done :=
  ho.linked.mem_before_of_below ho.children_nodup hsplit ((mem_preorder ho.linked).1 hz) hbelow hne

end Order

/-! ## Counts -/

/-- **The counts of a merge** that has come to some nodes. -/
structure Counts (b o : Tree) (done : List NodeId) (stats : MergeStats) : Prop where
  overwritten : stats.overwritten = (done.filter (refines b o)).length
  added : stats.added = (done.filter (isGraftTop b o)).length
  skipped : stats.skipped = (done.filter (isSkipped b o)).length

theorem Counts.snoc {stats : MergeStats} (h : Counts b o done stats) (id : NodeId) : Counts b o (done ++ [id])
    { overwritten := stats.overwritten + if refines b o id then 1 else 0
      added := stats.added + if isGraftTop b o id then 1 else 0
      skipped := stats.skipped + if isSkipped b o id then 1 else 0 } where
  overwritten := by
    rw [h.overwritten, List.filter_append, List.length_append]; cases hid : refines b o id <;> simp [hid]
  added := by rw [h.added, List.filter_append, List.length_append]; cases hid : isGraftTop b o id <;> simp [hid]
  skipped := by rw [h.skipped, List.filter_append, List.length_append]; cases hid : isSkipped b o id <;> simp [hid]

end Tree
end SignalCatalog
