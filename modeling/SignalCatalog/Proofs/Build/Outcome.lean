import SignalCatalog.Proofs.Build.Entries
import SignalCatalog.Proofs.Build.Orphans
import SignalCatalog.Proofs.Forest.Cut
/-!
# What a build gives back

Every build that succeeds, in whatever mode and from whatever entries, gives a well-formed tree whose siblings differ.
-/
namespace SignalCatalog

namespace Tree

variable {t : Tree}

theorem WellFormed.prune (ht : t.WellFormed) : t.prune.1.WellFormed :=
  ⟨ht.toRooted.prune, (cut_prune ht.linked).childrenNodup ht.children_nodup⟩

theorem SiblingsDiffer.prune (hs : t.SiblingsDiffer) (ht : t.Linked) : t.prune.1.SiblingsDiffer :=
  (cut_prune ht).distinct ht hs

end Tree

namespace Builder

variable {b : Builder} {mode : BuildMode} {r : String} {root : Nat} {o : BuildOutcome}

theorem mem_unattached {e : String × NodeId} : e ∈ b.unattached ↔ e ∈ b.placed ∧ b.forest.parent? e.2 = none := by
  rw [unattached, List.mem_filter, Option.isNone_iff_eq_none]

def roots (b : Builder) : List (String × NodeId) := b.unattached.filter fun e => !QualifiedName.isQualified e.1

def orphans (b : Builder) : List (String × NodeId) := b.unattached.filter fun e => QualifiedName.isQualified e.1

theorem mem_roots {e : String × NodeId} : e ∈ b.roots ↔ e ∈ b.placed ∧ b.forest.parent? e.2 = none ∧
    QualifiedName.parent? e.1 = none := by
  rw [roots, List.mem_filter, mem_unattached, QualifiedName.parent?_eq_none_iff, Bool.not_eq_true', and_assoc]

theorem mem_orphans {e : String × NodeId} : e ∈ b.orphans ↔ e ∈ b.placed ∧ b.forest.parent? e.2 = none ∧
    QualifiedName.parent? e.1 ≠ none := by
  rw [orphans, List.mem_filter, mem_unattached, ne_eq, QualifiedName.parent?_eq_none_iff, Bool.not_eq_false, and_assoc]

theorem byDepth_perm (l : List (String × NodeId)) : (byDepth l).Perm l := List.mergeSort_perm _ _

theorem connecting_start (h : b.Sound) (hroot : (r, root) ∈ b.roots) : Connecting r root (byDepth b.orphans) b := by
  have hmem {e : String × NodeId} : e ∈ byDepth b.orphans ↔
      e ∈ b.placed ∧ b.forest.parent? e.2 = none ∧ QualifiedName.parent? e.1 ≠ none :=
        (byDepth_perm _).mem_iff.trans mem_orphans
  obtain ⟨hplaced, -, hbare⟩ := mem_roots.1 hroot
  refine ⟨h, hplaced, hbare, ?_, ?_, fun e he => hmem.1 he, fun e he hname _ => ?_⟩
  · refine (List.pairwise_mergeSort (fun a b c hab hbc => ?_) (fun a b => ?_) _).imp fun hle => of_decide_eq_true hle
    · rw [decide_eq_true_eq] at *
      exact Nat.le_trans hab hbc
    · rw [Bool.or_eq_true, decide_eq_true_eq, decide_eq_true_eq]
      exact Nat.le_total _ _
  · rw [((byDepth_perm _).map _).nodup_iff]
    refine List.Nodup.sublist ((List.filter_sublist.trans List.filter_sublist).map _) ?_
    rw [h.ids]
    exact List.nodup_range
  · by_cases hnone : b.forest.parent? e.2 = none
    · exact .inr (hmem.2 ⟨he, hnone, hname⟩)
    · exact .inl hnone

theorem wellFormed_of_placed (h : b.Sound) (hroot : (r, root) ∈ b.placed) (hbare : QualifiedName.parent? r = none) :
    Tree.WellFormed { b.forest with root } ∧ Tree.SiblingsDiffer { b.forest with root } :=
  ⟨⟨⟨h.linked, h.parent?_eq_none hroot hbare, h.lt_count hroot⟩, h.children_nodup⟩, h.distinctBelow root⟩

/-- **The tree of a finished build** is the forest of a sound builder, pruned or not. -/
theorem exists_sound_of_finish (h : b.Sound) (hf : b.finish mode = .ok o) : ∃ (b' : Builder) (r : String) (root : Nat),
    b'.Sound ∧ (r, root) ∈ b'.placed ∧ QualifiedName.parent? r = none ∧
      (o.tree = { b'.forest with root } ∨ o.tree = (Tree.prune { b'.forest with root }).1) := by
  rw [finish] at hf
  split at hf
  · cases hf
  · rename_i r root hroots
    have hmem : (r, root) ∈ b.roots := by
      rw [roots, hroots]
      exact List.mem_cons_self
    obtain ⟨hplaced, -, hbare⟩ := mem_roots.1 hmem
    split at hf
    · obtain ⟨-, hdone, -, -⟩ := (connecting_start h hmem).all
      dsimp only at hf
      split at hf
      · cases hf
      · cases hf
        exact ⟨_, r, root, hdone.sound, hdone.root_placed, hdone.root_bare, .inl rfl⟩
    · cases hf
      exact ⟨b, r, root, h, hplaced, hbare, .inr rfl⟩
    · cases hf
      exact ⟨b, r, root, h, hplaced, hbare, .inl rfl⟩
  · cases hf

theorem wellFormed_of_finish (h : b.Sound) (hf : b.finish mode = .ok o) :
    o.tree.WellFormed ∧ o.tree.SiblingsDiffer := by
  obtain ⟨b', r, root, hb', hplaced, hbare, htree⟩ := exists_sound_of_finish h hf
  have hwf := wellFormed_of_placed hb' hplaced hbare
  rcases htree with htree | htree
  · rw [htree]
    exact hwf
  · rw [htree]
    exact ⟨hwf.1.prune, hwf.2.prune hwf.1.linked⟩

theorem dotFree_of_finish (h : b.Sound) (hf : b.finish mode = .ok o) {x : Nat} (hx : x < o.tree.count) :
    '.' ∉ (o.tree.node x).name.toList := by
  obtain ⟨b', r, root, hb', hplaced, hbare, htree⟩ := exists_sound_of_finish h hf
  have hnames : ∀ x < b'.forest.count, '.' ∉ (b'.forest.node x).name.toList := by
    intro x hx
    obtain ⟨fqn, he⟩ := hb'.exists_placed hx
    rw [hb'.named _ he]
    exact QualifiedName.dotFree_segments fqn _ (QualifiedName.last_mem_segments fqn)
  rcases htree with htree | htree
  · rw [htree] at hx ⊢
    exact hnames x hx
  · have hcut : Forest.Cut (Tree.marked { b'.forest with root }) b'.forest
        (Tree.prune { b'.forest with root }).1.toForest :=
      Tree.cut_prune hb'.linked
    rw [htree, hcut.count] at hx
    rw [htree, hcut.name]
    exact hnames x hx

end Builder

/-- **Every successful build ends with a sound builder.** -/
theorem exists_finish_of_build {r : Registry} {mode : BuildMode} {data : Mapping} {o : BuildOutcome}
    (h : build r mode data = .ok o) :
    ∃ b : Builder, b.Sound ∧ b.finish mode = .ok o := by
  obtain ⟨b, hadd, hf⟩ := exists_addAll_of_build h
  exact ⟨b, (Builder.underway_addAll (Builder.underway_nil mode) hadd).sound, hf⟩

theorem wellFormed_of_build {r : Registry} {mode : BuildMode} {data : Mapping} {o : BuildOutcome}
    (h : build r mode data = .ok o) :
    o.tree.WellFormed ∧ o.tree.SiblingsDiffer := by
  obtain ⟨b, hb, hf⟩ := exists_finish_of_build h
  exact Builder.wellFormed_of_finish hb hf

theorem dotFree_of_build {r : Registry} {mode : BuildMode} {data : Mapping} {o : BuildOutcome}
    (h : build r mode data = .ok o) {x : Nat} (hx : x < o.tree.count) : '.' ∉ (o.tree.node x).name.toList := by
  obtain ⟨b, hb, hf⟩ := exists_finish_of_build h
  exact Builder.dotFree_of_finish hb hf hx

end SignalCatalog
