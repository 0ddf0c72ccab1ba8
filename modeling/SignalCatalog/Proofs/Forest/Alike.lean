import Mathlib.Data.List.Perm.Basic
import SignalCatalog.Proofs.Forest.Named
import SignalCatalog.Proofs.Forest.Sketch
/-!
# Trees that look alike

Trees that differ in nothing but the order of siblings of different names have equal sketches.  Their pre-orders are
permutations of each other, and where siblings differ by name it is enough that the contents are equal.
-/
namespace SignalCatalog
namespace Forest

variable {f g : Forest} {a b d x : Nat} {c : NodeId}

abbrev look (f : Forest) (depth : Nat) (x : NodeId) : Sketch := f.sketch (fun _ => {}) depth x

theorem subtreeWithin_add (hf : f.Linked) (hdeep : ∀ q y, f.Route a q y → q.length ≤ d) (k : Nat) :
    f.subtreeWithin (d + k) a = f.subtreeWithin d a := by
  induction d generalizing a with
  | zero =>
    cases k <;> simp [subtreeWithin, Route.children_eq_nil hf hdeep]
  | succ d ih =>
    rw [Nat.add_right_comm, subtreeWithin, subtreeWithin]
    exact congrArg _ (List.flatMap_congr fun c hc => ih (Route.length_le_child hdeep (hf.mem_children.1 hc)))

end Forest

theorem perm_of_filter_eq {α : Type} {l l' : List Nat} {m m' : Nat → String} {v v' : Nat → α}
    (h : ∀ name, (l.filter fun i => m i == name).map v = (l'.filter fun i => m' i == name).map v') :
    (l.map fun i => (m i, v i)).Perm (l'.map fun i => (m' i, v' i)) := by
  classical
  have hcount (l : List Nat) (m : Nat → String) (v : Nat → α) (name : String) (y : α) :
      (l.map fun i => (m i, v i)).count (name, y) = ((l.filter fun i => m i == name).map v).count y := by
    rw [List.count, List.countP_map, List.count, List.countP_map, List.countP_filter]
    refine List.countP_congr fun i _ => ?_
    simp [and_comm]
  refine List.perm_iff_count.2 fun ⟨name, y⟩ => ?_
  rw [hcount, hcount, h]

theorem exists_forall₂_of_perm_map {α β γ : Type} {l : List α} {l' : List β} {k : α → γ} {k' : β → γ}
    (h : (l.map k).Perm (l'.map k')) :
    ∃ w : List β, List.Forall₂ (fun x y => k x = k' y) l w ∧ w.Perm l' := by
  have hsame : List.Forall₂ (fun z y => z = k' y) (l'.map k') l' :=
    List.forall₂_map_left_iff.2 (List.forall₂_same.2 fun _ _ => rfl)
  obtain ⟨w, hw, hperm⟩ := List.perm_comp_forall₂ h hsame
  exact ⟨w, List.forall₂_map_left_iff.1 hw, hperm⟩

namespace Tree

variable {t t' : Tree} {a b d x y : Nat} {q : List String}

def entry (t : Tree) (x : NodeId) : String × Content := (t.fqn x, (t.node x).content)

theorem mem_described_iff {e : String × Content} : e ∈ t.described ↔ e ∈ t.preorder.map t.entry := by
  rw [List.mem_map]
  exact exists_congr fun x => and_congr_right fun _ => eq_comm

/-- **A tree as every expansion leaves it**: a rooted one that lists no child again behind another of its name. -/
structure Orderly (t : Tree) : Prop extends Rooted t where
  tidy : t.Tidy

theorem WellFormed.orderly (ht : t.WellFormed) : t.Orderly :=
  ⟨ht.toRooted, fun p _ => grouped_of_nodup ((ht.children_nodup p).filter _)⟩

/-- **Trees that look alike**, the order of siblings of different names aside. -/
structure Alike (t t' : Tree) : Prop where
  root : t'.rootName = t.rootName
  look : ∀ d, t'.look d t'.root = t.look d t.root

theorem Alike.symm (h : Alike t t') : Alike t' t := ⟨h.root.symm, fun d => (h.look d).symm⟩

/-- What looks alike at the same path says the same, down to every depth. -/
theorem perm_of_look (ht : t.Orderly) (ht' : t'.Orderly) (hroot : t'.rootName = t.rootName)
    (ha : t.Route t.root q a) (hb : t'.Route t'.root q b) (h : t'.look d b = t.look d a) :
    ((t'.subtreeWithin d b).map t'.entry).Perm ((t.subtreeWithin d a).map t.entry) := by
  have hself {d : Nat} {q : List String} {a b : Nat} (ha : t.Route t.root q a) (hb : t'.Route t'.root q b)
      (h : t'.look d b = t.look d a) : t'.entry b = t.entry a := by
    have hcontent := congrArg Sketch.content h
    rw [Forest.content_sketch, Forest.content_sketch] at hcontent
    rw [entry, entry, hcontent, Forest.fqn_of_route ht.linked ht.root_top ha,
      Forest.fqn_of_route ht'.linked ht'.root_top hb]
    exact congrArg (fun r => (QualifiedName.ofSegments (r :: q), _)) hroot
  induction d generalizing q a b with
  | zero =>
    rw [Forest.subtreeWithin, Forest.subtreeWithin, List.map_singleton, List.map_singleton, hself ha hb h]
  | succ d ih =>
    rw [Forest.subtreeWithin, Forest.subtreeWithin, List.map_cons, List.map_cons, hself ha hb h,
      List.map_flatMap, List.map_flatMap]
    refine .cons _ ?_
    -- the children are the same, name by name
    have hkids (name : String) : (t'.named b name).map (t'.look d) = (t.named a name).map (t.look d) := by
      have hkids : t'.kids (fun _ => {}) d b name = t.kids (fun _ => {}) d a name :=
        congrFun (congrArg Sketch.kids h) name
      have := congrArg untally hkids
      rwa [Forest.kids, Forest.kids, untally_map, untally_map, ht'.tidy b name, ht.tidy a name] at this
    obtain ⟨cs, hcs, hperm⟩ := exists_forall₂_of_perm_map (perm_of_filter_eq hkids)
    have hchildren : ∀ c ∈ cs, t.parent? c = some a := fun c hc => ht.linked.mem_children.1 (hperm.subset hc)
    refine .trans ?_ (hperm.flatMap_right _)
    refine List.Perm.flatten_congr (List.forall₂_map_left_iff.2 (List.forall₂_map_right_iff.2 ?_))
    have hall := (List.forall₂_and_left _ _).2 ⟨fun c hc => ht'.linked.mem_children.1 hc, hcs⟩
    have hall := (List.forall₂_and_left _ _).2 ⟨hchildren, hall.flip⟩
    refine hall.flip.imp fun c' c hcc => ?_
    obtain ⟨hc, hc', heq⟩ := hcc
    obtain ⟨hname, hlook⟩ := Prod.mk.inj heq
    exact ih (.down ha hc) (hname ▸ .down hb hc') hlook

namespace Alike

variable (h : Alike t t') (ht : t.Orderly) (ht' : t'.Orderly)
include h ht ht'

theorem perm : (t'.preorder.map t'.entry).Perm (t.preorder.map t.entry) := by
  have hdeep {t : Tree} (ht : t.Orderly) (k : Nat) : t.subtreeWithin (t.count + k) t.root = t.preorder :=
    Forest.subtreeWithin_add ht.linked (fun _ _ hq => ht.linked.length_le_count hq) k
  have := perm_of_look ht ht' h.root .here .here (h.look (t.count + t'.count))
  rwa [hdeep ht, Nat.add_comm, hdeep ht'] at this

theorem described_eq : t'.described = t.described := by
  ext e
  rw [mem_described_iff, mem_described_iff, (h.perm ht ht').mem_iff]

end Alike

/-! ## Trees whose siblings differ -/

theorem named_of_distinct {f : Forest} {name : String} (hf : f.Linked) (hn : f.ChildrenNodup) (hd : f.DistinctBelow a) :
    f.named a name = (f.childNamed? a name).toList := by
  cases hc : f.childNamed? a name with
  | none => exact Forest.named_eq_nil.2 hc
  | some c =>
    have hperm : (f.named a name).Perm [c] := by
      refine (List.perm_ext_iff_of_nodup ((hn a).filter _) (List.nodup_singleton c)).2 fun x => ?_
      change x ∈ f.named a name ↔ _
      rw [Forest.mem_named, List.mem_singleton, hf.mem_children, ← hf.childNamed?_eq_some hd, hc,
        Option.some_inj, eq_comm]
    exact List.perm_singleton.1 hperm

theorem look_of_content {f g : Forest} (hf : f.Linked) (hfn : f.ChildrenNodup) (hfd : f.DistinctBelow a) (hg : g.Linked)
    (hgn : g.ChildrenNodup) (hgd : g.DistinctBelow b) (h : g.content? b = f.content? a) : g.look d b = f.look d a := by
  have hself : (g.node b).content = (f.node a).content := Option.some_inj.1 (congrFun h [])
  induction d generalizing a b with
  | zero => rw [Forest.look, Forest.look, Forest.sketch, Forest.sketch, hself]
  | succ d ih =>
    rw [Forest.look, Forest.look, Forest.sketch_succ, Forest.sketch_succ, hself]
    congr 1
    funext name
    rw [Forest.kids, Forest.kids, named_of_distinct hf hfn hfd, named_of_distinct hg hgn hgd]
    have hchild (q : List String) := congrFun h (name :: q)
    simp only [Forest.content?_cons] at hchild
    cases hc : f.childNamed? a name with
    | none =>
      cases hc' : g.childNamed? b name with
      | none => rfl
      | some c' =>
        have := hchild []
        rw [hc, hc'] at this
        cases this
    | some c =>
      cases hc' : g.childNamed? b name with
      | none =>
        have := hchild []
        rw [hc, hc'] at this
        cases this
      | some c' =>
        rw [hc, hc'] at hchild
        have heq : g.content? c' = f.content? c := funext hchild
        have := ih (hfd.mono (Forest.Below.refl.down (hf.mem_childNamed? hc).1))
          (hgd.mono (Forest.Below.refl.down (hg.mem_childNamed? hc').1))
          heq (Option.some_inj.1 (congrFun heq []))
        simp only [Option.toList_some, tally_of_nodup (List.nodup_singleton _), List.map_singleton, this]

/-- **Where siblings differ by name**, trees of equal contents look alike. -/
theorem alike_of_contents (ht : t.WellFormed) (hs : t.SiblingsDiffer) (ht' : t'.WellFormed) (hs' : t'.SiblingsDiffer)
    (hroot : t'.rootName = t.rootName) (h : t'.contents = t.contents) : Alike t t' :=
  ⟨hroot, fun _ => look_of_content ht.linked ht.children_nodup hs ht'.linked ht'.children_nodup hs' h⟩

end Tree
end SignalCatalog
