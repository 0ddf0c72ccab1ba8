import SignalCatalog.Proofs.Forest.Subtree
/-!
# Checking a finished tree

A test that can be run on a tree given node by node, and what a tree that passes it is known to be.
-/
namespace SignalCatalog
namespace Forest

variable {f : Forest}

/-- **Edges lead from earlier to later nodes and are noted at both ends**, and siblings differ by name. -/
def isOrdered (f : Forest) : Bool :=
  (List.range f.count).all fun x =>
    ((f.parent? x).all fun p => decide (p < x) && (f.children p).contains x) &&
    ((f.children x).all fun c => f.parent? c == some x) &&
    decide ((f.children x).map fun c => (f.node c).name).Nodup

theorem isOrdered_iff : f.isOrdered = true ↔ ∀ x < f.count,
    (∀ p, f.parent? x = some p → p < x ∧ x ∈ f.children p) ∧ (∀ c ∈ f.children x, f.parent? c = some x) ∧
      ((f.children x).map fun c => (f.node c).name).Nodup := by
  rw [isOrdered, List.all_eq_true]
  refine forall_congr' fun x => ?_
  rw [List.mem_range, Bool.and_eq_true, Bool.and_eq_true, List.all_eq_true, decide_eq_true_iff, and_assoc]
  refine imp_congr_right fun _ => and_congr ?_ (and_congr_left fun _ => by simp only [beq_iff_eq])
  cases f.parent? x <;> simp

theorem linked_of_isOrdered (h : f.isOrdered = true) : f.Linked where
  mem_children := by
    intro p c
    exact ⟨fun hc => (isOrdered_iff.1 h p (lt_count_of_mem_children hc)).2.1 c hc,
      fun hp => ((isOrdered_iff.1 h c (lt_count_of_parent? hp)).1 p hp).2⟩
  ranked := ⟨id, fun {c p} hp => ((isOrdered_iff.1 h c (lt_count_of_parent? hp)).1 p hp).1⟩

theorem names_nodup_of_isOrdered (h : f.isOrdered = true) (p : Nat) :
    ((f.children p).map fun c => (f.node c).name).Nodup := by
  by_cases hp : p < f.count
  · exact (isOrdered_iff.1 h p hp).2.2
  · rw [children_of_count_le (Nat.le_of_not_lt hp)]
    exact List.nodup_nil

theorem distinct_of_isOrdered (h : f.isOrdered = true) (a : Nat) : f.DistinctBelow a := fun p _ _ _ hc hd hcd =>
  List.inj_on_of_nodup_map (names_nodup_of_isOrdered h p) ((linked_of_isOrdered h).mem_children.2 hc)
    ((linked_of_isOrdered h).mem_children.2 hd) hcd

end Forest

namespace Tree

variable {t : Tree}

def isOrdered (t : Tree) : Bool := t.toForest.isOrdered && (t.parent? t.root).isNone && decide (t.root < t.count)

/-- **A tree that passes the test is well-formed.** -/
theorem wellFormed_of_isOrdered (h : t.isOrdered = true) : t.WellFormed := by
  simp only [isOrdered, Bool.and_eq_true, Option.isNone_iff_eq_none, decide_eq_true_eq] at h
  exact ⟨⟨Forest.linked_of_isOrdered h.1.1, h.1.2, h.2⟩, fun p => (Forest.names_nodup_of_isOrdered h.1.1 p).of_map⟩

theorem siblingsDiffer_of_isOrdered (h : t.isOrdered = true) : t.SiblingsDiffer := by
  simp only [isOrdered, Bool.and_eq_true] at h
  exact Forest.distinct_of_isOrdered h.1.1 _

end Tree
end SignalCatalog
