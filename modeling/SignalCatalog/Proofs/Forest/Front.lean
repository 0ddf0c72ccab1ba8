import SignalCatalog.Proofs.Forest.Growth
/-!
# Children put first

Putting some children first keeps the order of the others.  When templates are merged into a node one after another, its
children are put in order once for each of them.
-/
namespace SignalCatalog
namespace Forest

variable {f : Forest} {p x : Nat} {first ids old new added : List NodeId} {stands stands' : NodeId → NodeId → Prop}
  {ls ls' : List (List NodeId)}

/-- **Some nodes first**, in their order, and then the others in theirs. -/
def front (first old : List NodeId) : List NodeId := first ++ old.filter fun c => !first.contains c

@[simp] theorem front_nil (first : List NodeId) : front first [] = first := List.append_nil first

theorem front_append (h : added ⊆ first) : front first (old ++ added) = front first old := by
  have hnone : (added.filter fun c => !first.contains c) = [] :=
    List.filter_eq_nil_iff.2 fun c hc => by simpa using h hc
  rw [front, List.filter_append, hnone, List.append_nil, front]

theorem children_reorder (h : ids ⊆ f.children p) : (f.reorder p ids).children p = front ids (f.children p) := by
  by_cases hp : p < f.count
  · rw [children, reorder, node_modify_self _ hp]
    refine congrArg (· ++ _) (List.filter_eq_self.2 fun c hc => ?_)
    rw [List.contains_iff_mem]
    exact h hc
  · have hnone : f.children p = [] := children_of_count_le (Nat.le_of_not_lt hp)
    rw [hnone] at h
    rw [List.subset_nil.1 h, children_of_count_le (by rw [(sameShape_reorder _).count]; omega), hnone]
    rfl

theorem children_reorder_other (hx : x ≠ p) : (f.reorder p ids).children x = f.children x :=
  congrArg Node.children ((sameShape_reorder ids).other hx)

/-- **Children put in order for some lists of templates**, list after list: the nodes that stand for the templates of a
list come first. -/
def Rearranged (stands : NodeId → NodeId → Prop) (ls : List (List NodeId)) (old new : List NodeId) : Prop :=
  ∃ firsts, List.Forall₂ (List.Forall₂ stands) ls firsts ∧ new = firsts.foldl (fun cs first => front first cs) old

namespace Rearranged

theorem refl : Rearranged stands [] old old := ⟨[], .nil, rfl⟩

theorem eq_of_nil (h : Rearranged stands [] old new) : new = old := by
  obtain ⟨firsts, hfirsts, rfl⟩ := h
  cases hfirsts
  rfl

theorem single {ts : List NodeId} (h : List.Forall₂ stands ts first) : Rearranged stands [ts] old (front first old) :=
  ⟨[first], .cons h .nil, rfl⟩

theorem mono (h : Rearranged stands ls old new) (himp : ∀ c z, stands c z → stands' c z) :
    Rearranged stands' ls old new := by
  obtain ⟨firsts, hfirsts, rfl⟩ := h
  exact ⟨firsts, hfirsts.imp fun _ _ hts => hts.imp himp, rfl⟩

theorem append {last : List NodeId} (h : Rearranged stands ls old new) (h' : Rearranged stands ls' new last) :
    Rearranged stands (ls ++ ls') old last := by
  obtain ⟨firsts, hfirsts, rfl⟩ := h
  obtain ⟨firsts', hfirsts', rfl⟩ := h'
  exact ⟨firsts ++ firsts', List.rel_append hfirsts hfirsts', List.foldl_append.symm⟩

end Rearranged

end Forest
end SignalCatalog
