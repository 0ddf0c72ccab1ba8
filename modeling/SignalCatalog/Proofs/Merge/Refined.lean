import SignalCatalog.Proofs.Merge.Steps
/-!
# What a merge does to the nodes of the base

Of whatever shape the two trees are, a merge changes a node of the base only by refining its payload with that of a
declared node of the overlay.  Grafts and missing parents leave the nodes that are there alone.
-/
namespace SignalCatalog
namespace Forest

variable {f g h source : Forest} {a d p s : Nat} {n : Node}

/-- **The nodes of the first forest are in the second**, with their contents. -/
structure Keeps (f g : Forest) : Prop where
  count_le : f.count ≤ g.count
  content : ∀ x < f.count, (g.node x).content = (f.node x).content

namespace Keeps

theorem refl (f : Forest) : Keeps f f := ⟨Nat.le_refl _, fun _ _ => rfl⟩

theorem trans (hfg : Keeps f g) (hgh : Keeps g h) : Keeps f h where
  count_le := Nat.le_trans hfg.count_le hgh.count_le
  content := fun x hx => (hgh.content x (Nat.lt_of_lt_of_le hx hfg.count_le)).trans (hfg.content x hx)

end Keeps

theorem keeps_modify {k : Node → Node} (hk : ∀ n, (k n).content = n.content) : Keeps f (f.modify a k) where
  count_le := Nat.le_of_eq (count_modify k).symm
  content := fun _ _ => field_modify Node.content hk

theorem keeps_detach : Keeps f (f.detach a) := by
  unfold detach
  split
  · exact .refl f
  · refine .trans (keeps_modify ?_) (keeps_modify ?_)
    all_goals exact fun _ => rfl

theorem keeps_attach : Keeps f (f.attach p a) := by
  unfold attach
  refine .trans (.trans keeps_detach (keeps_modify ?_)) (keeps_modify ?_)
  all_goals exact fun _ => rfl

theorem keeps_addChild : Keeps f (f.addChild p n).1 := by
  have hadd : Keeps f (f.add n).1 := by
    refine ⟨by simp, fun x hx => ?_⟩
    rw [node_add, if_neg (Nat.ne_of_lt hx)]
  exact hadd.trans keeps_attach

theorem keeps_graftWithin : Keeps f (source.graftWithin d f s p).1 := by
  induction d generalizing f s p with
  | zero => exact keeps_addChild
  | succ d ih =>
    have hcopies : ∀ (cs : List Nat) (g : Forest) (copy : Nat),
        Keeps g (cs.foldl (fun g c => (source.graftWithin d g c copy).1) g) := by
      intro cs
      induction cs with
      | nil => exact fun g _ => .refl g
      | cons c cs ihc => exact fun g copy => ih.trans (ihc _ copy)
    exact keeps_addChild.trans (hcopies _ _ _)

theorem keeps_graft : Keeps f (f.graft source s p).1 := keeps_graftWithin

end Forest

namespace Tree

open Forest (Keeps)

variable {r : Registry} {D : Payload → Prop} {b o u u' : Tree} {c : Content} {id x : Nat}
  {ids grafted : List NodeId} {names : List String} {fqn name : String} {parent : Option String} {stats : MergeStats}

theorem keeps_ensureBelow : Keeps u.toForest (u.ensureBelow id names).1.toForest := by
  induction names generalizing u id with
  | nil => exact .refl _
  | cons name names ih =>
    rw [ensureBelow]
    split
    · exact ih
    · exact Keeps.trans (g := (u.withForest (u.addChild id (.placeholder name)).1).toForest) Forest.keeps_addChild ih

theorem keeps_ensure : Keeps u.toForest (u.ensure name).1.toForest := by
  rw [ensure]
  split
  · exact .refl _
  · split
    · exact keeps_ensureBelow
    · exact .refl _

theorem keeps_ensureParent {a : Except OverlayError NodeId} (hon : (ensureParent fqn parent).on u = (a, u')) :
    Keeps u.toForest u'.toForest := by
  rcases ensureParent_cases hon with ⟨-, rfl⟩ | ⟨name, x, -, ⟨-, rfl⟩ | hensure⟩
  · exact .refl _
  · exact .refl _
  · have hkeeps : Keeps u.toForest (u.ensure name).1.toForest := keeps_ensure
    rwa [hensure] at hkeeps

/-- **A content refined by payloads of a kind**, one after another. -/
inductive Refined (r : Registry) (D : Payload → Prop) (c : Content) : Content → Prop
  | kept : Refined r D c c
  | refined {c' : Content} {p m : Payload} : Refined r D c c' → D p → Payload.refine r c'.payload p = .ok m →
      Refined r D c ⟨m, false⟩

/-- **Every node of the base is there**, refined or not. -/
def RefinedFrom (r : Registry) (D : Payload → Prop) (b u : Tree) : Prop :=
  ∀ x < b.count, x < u.count ∧ Refined r D (b.node x).content (u.node x).content

namespace RefinedFrom

theorem keeps (h : RefinedFrom r D b u) (hk : Keeps u.toForest u'.toForest) : RefinedFrom r D b u' := by
  intro x hx
  obtain ⟨hlt, hrefined⟩ := h x hx
  exact ⟨Nat.lt_of_lt_of_le hlt hk.count_le, hk.content x hlt ▸ hrefined⟩

theorem declareAt {p m : Payload} (h : RefinedFrom r D b u) (hp : D p)
    (hm : Payload.refine r (u.node id).payload p = .ok m) :
    RefinedFrom r D b (u.declareAt id m) := by
  intro x hx
  obtain ⟨hlt, hrefined⟩ := h x hx
  refine ⟨by rwa [Tree.declareAt, withForest, Forest.count_modify], ?_⟩
  rw [Tree.declareAt, withForest, Forest.node_modify]
  split
  · rename_i heq
    rw [heq.1] at hm
    exact hrefined.refined hp hm
  · exact hrefined

end RefinedFrom

theorem mergeNodes_refined (h : RefinedFrom r D b u)
    (hD : ∀ id ∈ ids, (o.node id).autogenerated = false → D (o.node id).payload)
    {result : Except OverlayError MergeStats} (hon : (mergeNodes r o stats grafted ids).on u = (result, u')) :
    RefinedFrom r D b u' :=
  (mergeNodes_run (fun h hid hauto _ hm => h.declareAt (hD _ hid hauto) hm)
    (fun h hparent => h.keeps (keeps_ensureParent hparent))
    (fun h _ hparent => (h.keeps (keeps_ensureParent hparent)).keeps Forest.keeps_graft) h hon).1

/-- **A merge refines nodes of the base by declared payloads of the overlay** and changes their contents in no other
way, be it that it succeeds or not. -/
theorem merge_refined (hD : ∀ id ∈ o.preorder, (o.node id).autogenerated = false → D (o.node id).payload) :
    RefinedFrom r D b (merge r b o).1 := by
  have hon : (mergeNodes r o {} [] o.preorder).on b = ((merge r b o).2, (merge r b o).1) := rfl
  exact mergeNodes_refined (fun _ hx => ⟨hx, .kept⟩) hD hon

end Tree
end SignalCatalog
