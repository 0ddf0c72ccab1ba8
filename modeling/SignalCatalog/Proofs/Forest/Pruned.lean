import SignalCatalog.Proofs.Forest.Check
import SignalCatalog.Proofs.Forest.Cut
/-!
# Pruned trees

Pruning leaves the nodes that are spared, those that no mark is on or above, and leaves them as they are.  How marks are
nested makes no difference: a marked node goes with all that is below it, and detaching what is gone already changes
nothing in the tree.
-/
namespace SignalCatalog
namespace Forest

variable {f g : Forest} {a b x y : Nat} {q : List String} {keep : Nat → Bool}

theorem mem_lineageWithin_of_route (h : f.Route y q x) (hb : q.length ≤ b) : y ∈ f.lineageWithin b x := by
  induction b generalizing q x with
  | zero =>
    rw [List.length_eq_zero_iff.1 (Nat.le_zero.1 hb)] at h
    rw [h.eq_of_nil]
    exact List.mem_cons_self
  | succ b ih =>
    rw [lineageWithin]
    cases h with
    | here => split <;> exact List.mem_cons_self
    | down h hc =>
      rw [hc]
      exact List.mem_cons_of_mem _ (ih h (by simpa using hb))

theorem Linked.mem_lineage (hf : f.Linked) : y ∈ f.lineage x ↔ f.Below y x :=
  ⟨below_of_mem_lineageWithin _, fun ⟨_, h⟩ => mem_lineageWithin_of_route h (hf.length_le_count h)⟩

theorem node_foldl_detach (hf : f.Linked) (cs : List Nat) : (cs.foldl detach f).node x =
    { f.node x with
      parent := if x ∈ cs then none else f.parent? x
      children := (f.children x).filter fun c => c ∉ cs } := by
  induction cs using List.reverseRecOn with
  | nil => simp [parent?, children]
  | append_singleton cs c ih =>
    have hlinked := (cut_foldl_detach hf cs).linked hf
    have hfilter : ((f.children x).filter fun d => d ∉ cs).filter (· != c) = (f.children x).filter fun d =>
        d ∉ cs ++ [c] := by
      rw [List.filter_filter]
      refine List.filter_congr fun d _ => ?_
      by_cases hd : d = c <;> simp [hd]
    rw [List.foldl_append, List.foldl_cons, List.foldl_nil, node_detach_of_linked hlinked, parent?, children, ih]
    dsimp only
    rw [hfilter]
    by_cases hx : x = c <;> simp [hx]

/-- **A choice of nodes from the top down** goes through the pre-order: where every node that is kept lists the children
that are kept, the subtree is what is kept of the old one. -/
theorem subtreeWithin_filter (hf : f.Linked) (hdown : ∀ p c, f.parent? c = some p → keep c = true → keep p = true)
    (hchildren : ∀ p, f.Below a p → keep p = true → g.children p = (f.children p).filter keep)
    (ha : keep a = true) (d : Nat) :
    g.subtreeWithin d a = (f.subtreeWithin d a).filter keep := by
  induction d generalizing a with
  | zero => simp [subtreeWithin, ha]
  | succ d ih =>
    rw [subtreeWithin, subtreeWithin, List.filter_cons, if_pos ha, hchildren a .refl ha, List.filter_flatMap]
    refine congrArg (a :: ·) ?_
    have hgone : ∀ c, keep c = false → (f.subtreeWithin d c).filter keep = [] := by
      intro c hc
      refine List.filter_eq_nil_iff.2 fun x hx hkeep => ?_
      obtain ⟨q, hq, -⟩ := (hf.mem_subtreeWithin d).1 hx
      -- going up from a node that is kept, all are kept
      have hup : keep c = true := by
        clear hx
        induction hq with
        | here => exact hkeep
        | down _ hparent ih => exact ih (hdown _ _ hparent hkeep)
      rw [hc] at hup
      cases hup
    have hin : ∀ c ∈ f.children a, keep c = true →
        g.subtreeWithin d c = (f.subtreeWithin d c).filter keep := fun c hc hkeep =>
      ih (fun p hp => hchildren p ((Below.refl.down (hf.mem_children.1 hc)).trans hp)) hkeep
    generalize f.children a = cs at hin
    induction cs with
    | nil => rfl
    | cons c cs ihcs =>
      obtain ⟨hfirst, hrest⟩ := List.forall_mem_cons.1 hin
      cases hkeep : keep c with
      | false =>
        rw [List.filter_cons_of_neg (by simp [hkeep]), List.flatMap_cons, hgone c hkeep, List.nil_append, ihcs hrest]
      | true => rw [List.filter_cons_of_pos hkeep, List.flatMap_cons, List.flatMap_cons, hfirst hkeep, ihcs hrest]

end Forest

namespace Tree

variable {t t' : Tree} {x c p : Nat} {removed : Nat}

/-- **A node that pruning spares**: neither it nor any ancestor of it is marked, the root aside. -/
def isSpared (t : Tree) (x : NodeId) : Bool :=
  (t.lineage x).all fun c => c == t.root || !(t.node c).payload.common.delete

theorem isSpared_iff (ht : t.Linked) :
    t.isSpared x = true ↔ ∀ c, t.Below c x → c ≠ t.root → (t.node c).payload.common.delete = false := by
  rw [isSpared, List.all_eq_true]
  refine forall_congr' fun c => imp_congr ht.mem_lineage ?_
  rw [Bool.or_eq_true, beq_iff_eq, Bool.not_eq_true']
  exact or_iff_not_imp_left

theorem isSpared_root (ht : t.Rooted) : t.isSpared t.root = true :=
  (isSpared_iff ht.linked).2 fun _ hc hne => absurd (hc.eq_of_top ht.root_top).symm hne

theorem isSpared_child (ht : t.Rooted) (hc : t.parent? c = some p) :
    t.isSpared c = true ↔ t.isSpared p = true ∧ (t.node c).payload.common.delete = false := by
  rw [isSpared_iff ht.linked, isSpared_iff ht.linked]
  constructor
  · refine fun h => ⟨fun b hb => h b (hb.down hc), h c .refl ?_⟩
    rintro rfl
    rw [ht.root_top] at hc
    cases hc
  · rintro ⟨habove, hown⟩ b ⟨q, hb⟩ hne
    cases hb with
    | here => exact hown
    | down hb hc' =>
      rw [hc] at hc'
      cases hc'
      exact habove b ⟨_, hb⟩ hne

theorem children_prune (ht : t.Rooted) (hp : t.Below t.root p) (hspared : t.isSpared p = true) :
    t.prune.1.children p = (t.children p).filter t.isSpared := by
  have hnode := Forest.node_foldl_detach (x := p) ht.linked t.marked
  rw [Forest.children, show t.prune.1.node p = _ from hnode]
  refine List.filter_congr fun c hc => Bool.eq_iff_iff.2 ?_
  have hparent := ht.linked.mem_children.1 hc
  have hroot : c ≠ t.root := by
    rintro rfl
    rw [ht.root_top] at hparent
    cases hparent
  rw [decide_eq_true_iff, mem_marked, mem_preorder ht.linked, isSpared_child ht hparent]
  simp [hspared, hroot, hp.down hparent]

theorem preorder_prune (ht : t.Rooted) : t.prune.1.preorder = t.preorder.filter t.isSpared := by
  have hcount : t.prune.1.count = t.count := (cut_prune ht.linked).count
  rw [preorder, Forest.subtree, hcount]
  exact Forest.subtreeWithin_filter ht.linked (fun _ _ hc hspared => ((isSpared_child ht hc).1 hspared).1)
    (fun _ => children_prune ht) (isSpared_root ht) _

/-- **A tree after pruning**, told from the tree before it. -/
structure ExactlyPruned (t : Tree) (removed : Nat) (t' : Tree) : Prop where
  same_root : t'.root = t.root
  wellFormed : t'.WellFormed
  /-- The nodes that are left are those that are spared, in their order. -/
  preorder : t'.preorder = t.preorder.filter t.isSpared
  /-- They are as they were, with those of their children that are spared. -/
  node : ∀ x ∈ t'.preorder, t'.node x = { t.node x with children := (t.children x).filter t.isSpared }
  removed : removed = (t.preorder.filter fun x => x ∉ t'.preorder).length

theorem exactlyPruned_prune (ht : t.WellFormed) : t.ExactlyPruned t.prune.2 t.prune.1 where
  same_root := rfl
  wellFormed := ⟨ht.toRooted.prune, (cut_prune ht.linked).childrenNodup ht.children_nodup⟩
  preorder := preorder_prune ht.toRooted
  node := by
    intro x hx
    rw [preorder_prune ht.toRooted, List.mem_filter, mem_preorder ht.linked] at hx
    have hunmarked : x ∉ t.marked := fun hm => by
      obtain ⟨-, hroot, hdelete⟩ := mem_marked.1 hm
      rw [(isSpared_iff ht.linked).1 hx.2 x .refl hroot] at hdelete
      cases hdelete
    have hnode := Forest.node_foldl_detach (x := x) ht.linked t.marked
    have hchildren := children_prune ht.toRooted hx.1 hx.2
    rw [Forest.children, show t.prune.1.node x = _ from hnode] at hchildren
    dsimp only at hchildren
    rw [show t.prune.1.node x = _ from hnode, if_neg hunmarked, ← hchildren]
    rfl
  removed := by
    have hsplit := List.length_eq_length_filter_add (l := t.preorder) t.isSpared
    have hgone : (t.preorder.filter fun x => x ∉ t.prune.1.preorder) = t.preorder.filter fun x => !t.isSpared x := by
      refine List.filter_congr fun x hx => ?_
      rw [preorder_prune ht.toRooted]
      simp [List.mem_filter, hx]
    change t.nodeCount - t.prune.1.nodeCount = _
    rw [hgone, nodeCount, nodeCount, preorder_prune ht.toRooted]
    omega

theorem prune_of_marked_eq_nil (h : t.marked = []) : t.prune = (t, 0) := by
  rw [prune, h]
  exact Prod.ext rfl (Nat.sub_self _)

theorem marked_prune (ht : t.WellFormed) : t.prune.1.marked = [] := by
  refine List.eq_nil_iff_forall_not_mem.2 fun x hx => ?_
  have hexact := exactlyPruned_prune ht
  obtain ⟨hin, hroot, hdelete⟩ := mem_marked.1 hx
  rw [hexact.node x hin] at hdelete
  rw [hexact.preorder, List.mem_filter] at hin
  rw [(isSpared_iff ht.linked).1 hin.2 x .refl hroot] at hdelete
  cases hdelete

/-- **Pruning is exact**: it leaves the spared nodes as they are, counts all others, and has nothing to do a
second time. -/
theorem prune_exact (ht : t.WellFormed) : t.ExactlyPruned t.prune.2 t.prune.1 ∧ t.prune.1.prune = (t.prune.1, 0) :=
  ⟨exactlyPruned_prune ht, prune_of_marked_eq_nil (marked_prune ht)⟩

/-- Marks on the root, on a node, below it and on a sibling of it. -/
def scrapped : Tree where
  nodes := #[
    { name := "Cabin", payload := { common := { description := "cabin", delete := true }, body := .branch [] },
      children := [1, 2, 3] },
    { name := "Door", payload := { common := { description := "door", delete := true }, body := .branch [] },
      parent := some 0, children := [4] },
    { name := "Seat", payload := .branch "seat", parent := some 0, children := [5] },
    { name := "Hatch", payload := { common := { description := "hatch", delete := true }, body := .struct },
      parent := some 0 },
    { name := "Lock", payload := { common := { description := "lock", delete := true }, body := .struct },
      parent := some 1 },
    { name := "Belt", payload := .branch "belt", parent := some 2 }]
  root := 0

theorem prune_scrapped : scrapped.WellFormed ∧ scrapped.prune.1.preorder = [0, 2, 5] ∧
    scrapped.ExactlyPruned 3 scrapped.prune.1 ∧ scrapped.prune.1.prune = (scrapped.prune.1, 0) := by
  have ht : scrapped.WellFormed := wellFormed_of_isOrdered (by decide)
  exact ⟨ht, by decide, prune_exact ht⟩

end Tree
end SignalCatalog
