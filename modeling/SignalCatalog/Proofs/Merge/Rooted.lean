import SignalCatalog.Proofs.Forest.Carried
import SignalCatalog.Proofs.Forest.Regrown
import SignalCatalog.Proofs.Merge.Refined
/-!
# Trees after a merge

What a merge leaves of any two trees whose links agree, be it that it succeeds or stops midway: the base has grown below
its root, and its nodes carry what they did, what payloads read as, or what the overlay carries.
-/
namespace SignalCatalog
namespace Tree

open Forest (Carries Grown)

variable {G : Content → Prop} {r : Registry} {b o t u u' v : Tree} {a id x : Nat}
  {ids grafted : List NodeId} {names : List String} {fqn name : String} {parent : Option String}
  {stats : MergeStats} {p : Payload}

/-- **A tree that has grown below its root**, with contents of a kind. -/
structure Extended (G : Content → Prop) (t u : Tree) : Prop where
  grown : Grown t.root t.toForest u.toForest
  same_root : u.root = t.root
  carries : Carries G t.toForest → Carries G u.toForest

namespace Extended

theorem refl (ht : t.Linked) : Extended G t t := ⟨.refl ht, rfl, id⟩

theorem trans (h : Extended G t u) (ht : t.Linked) (h' : Extended G u v) : Extended G t v where
  grown := h.grown.trans ht (h.same_root ▸ h'.grown)
  same_root := h'.same_root.trans h.same_root
  carries := fun hc => h'.carries (h.carries hc)

theorem rooted (h : Extended G t u) (ht : t.Rooted) : u.Rooted := ht.grown h.grown h.same_root

end Extended

/-! ## Missing parents -/

theorem grown_ensureBelow (names : List String) (ht : t.Linked) (ha : a < t.count) :
    Grown a t.toForest (t.ensureBelow a names).1.toForest ∧
    (t.ensureBelow a names).1.root = t.root ∧ (t.ensureBelow a names).1.Below a (t.ensureBelow a names).2 := by
  induction names generalizing t a with
  | nil => exact ⟨.refl ht, rfl, .refl⟩
  | cons name names ih =>
    rw [ensureBelow]
    split
    · rename_i c hc
      have hparent := (ht.mem_childNamed? hc).1
      obtain ⟨hgrown, hroot, hbelow⟩ := ih ht (Forest.lt_count_of_parent? hparent)
      have hdown : t.Below a c := Forest.Below.refl.down hparent
      exact ⟨hgrown.mono hdown, hroot, (hgrown.below hdown).trans hbelow⟩
    · have hadd : Grown a t.toForest (t.withForest (t.addChild a (.placeholder name)).1).toForest :=
        Forest.grown_addChild ht ha rfl rfl
      have hroute : (t.withForest (t.addChild a (.placeholder name)).1).Route a [name] t.count :=
        Forest.route_addChild ha rfl rfl
      obtain ⟨hgrown, hroot, hbelow⟩ := ih hadd.linked (hroute.lt_count (Nat.lt_of_lt_of_le ha hadd.count_le))
      exact ⟨hadd.trans ht (hgrown.mono ⟨_, hroute⟩), hroot, (hgrown.below ⟨_, hroute⟩).trans hbelow⟩

section Placeholders

variable (hplaceholder : G ⟨.placeholder, true⟩)
include hplaceholder

theorem carries_ensureBelow (h : Carries G t.toForest) : Carries G (t.ensureBelow a names).1.toForest := by
  induction names generalizing t a with
  | nil => exact h
  | cons name names ih =>
    rw [ensureBelow]
    split
    · exact ih h
    · exact ih (t := t.withForest (t.addChild a (.placeholder name)).1) (h.addChild hplaceholder)

theorem ensure_extended (name : String) (hu : u.Rooted) : Extended G u (u.ensure name).1 ∧
    ∀ x, (u.ensure name).2 = some x → (u.ensure name).1.Below (u.ensure name).1.root x := by
  rw [ensure]
  split
  · exact ⟨.refl hu.linked, fun x hx => by cases hx⟩
  · split
    · rename_i rest _ _
      obtain ⟨hgrown, hroot, hbelow⟩ := grown_ensureBelow rest hu.linked hu.root_lt_count
      refine ⟨⟨hgrown, hroot, carries_ensureBelow hplaceholder⟩, fun x hx => ?_⟩
      cases hx
      exact hroot.symm ▸ hbelow
    · exact ⟨.refl hu.linked, fun x hx => by cases hx⟩

theorem ensureParent_extended (hu : u.Rooted) {found : Except OverlayError NodeId}
    (hon : (ensureParent fqn parent).on u = (found, u')) :
    Extended G u u' ∧ ∀ x, found = .ok x → u'.Below u'.root x := by
  rcases ensureParent_cases hon with ⟨⟨e, rfl⟩, rfl⟩ | ⟨name, x, rfl, ⟨hfind, rfl⟩ | hensure⟩
  · exact ⟨.refl hu.linked, fun x hx => by cases hx⟩
  · refine ⟨.refl hu.linked, fun y hy => ?_⟩
    cases hy
    exact (mem_preorder hu.linked).1 (mem_preorder_of_find? hu.linked hfind)
  · have hmade := ensure_extended hplaceholder name hu
    rw [hensure] at hmade
    refine ⟨hmade.1, fun y hy => ?_⟩
    cases hy
    exact hmade.2 x rfl

/-! ## The nodes of the overlay -/

section Nodes

variable (hread : ∀ v p, Payload.read r v = .ok p → G ⟨p, false⟩) (ho : o.Linked) (hcarries : Carries G o.toForest)

omit hplaceholder in
include hread in
theorem declareAt_extended (hu : u.Rooted) (hfind : u.find? name = some x) {old m : Payload}
    (hm : Payload.refine r old p = .ok m) :
    Extended G u (u.declareAt x m) where
  grown := ((sameShape_declareAt x m).grown hu.linked).mono
    ((mem_preorder hu.linked).1 (mem_preorder_of_find? hu.linked hfind))
  same_root := rfl
  carries := fun hc => hc.declare (hread _ _ hm)

include ho hcarries in
theorem graft_extended (hu : u.Rooted) (hid : id < o.count) (hon : (ensureParent fqn parent).on u = (.ok x, u')) :
    Extended G u (u'.withForest (u'.graft o.toForest id x).1) := by
  obtain ⟨hmade, hbelow⟩ := ensureParent_extended hplaceholder hu hon
  have hu' := hmade.rooted hu
  have hx := hbelow x rfl
  have hcopy := Forest.copied_graft (s := id) ho hu'.linked (hx.lt_count hu'.root_lt_count)
  have hone : Extended G u' (u'.withForest (u'.graft o.toForest id x).1) :=
    ⟨hcopy.grown.mono hx, rfl, fun hc => Carries.graft ho hcarries hid hc⟩
  exact hmade.trans hu.linked hone

include hread ho hcarries in
theorem mergeNodes_extended (hu : u.Rooted) (hids : ∀ id ∈ ids, id < o.count) {result : Except OverlayError MergeStats}
    (hon : (mergeNodes r o stats grafted ids).on u = (result, u')) :
    Extended G u u' ∧ ∀ f n, result = .error (.foreignRoot f n) → Merging.Astray o ids (Extended G u) :=
  mergeNodes_run (fun hv _ _ hfind hm => hv.trans hu.linked (declareAt_extended hread (hv.rooted hu) hfind hm))
    (fun hv hparent => hv.trans hu.linked (ensureParent_extended hplaceholder (hv.rooted hu) hparent).1)
    (fun hv hid hparent =>
      hv.trans hu.linked (graft_extended hplaceholder ho hcarries (hv.rooted hu) (hids _ hid) hparent))
    (.refl hu.linked) hon

end Nodes

end Placeholders

/-- **A merge only adds nodes below the root of the base**, and brings in no contents but those that payloads read as or
that the overlay carries. -/
theorem merge_extended (hplaceholder : G ⟨.placeholder, true⟩)
    (hread : ∀ v p, Payload.read r v = .ok p → G ⟨p, false⟩) (hb : b.Rooted) (ho : o.Rooted)
    (hcarries : Carries G o.toForest) : Extended G b (merge r b o).1 := by
  have hon : (mergeNodes r o {} [] o.preorder).on b = ((merge r b o).2, (merge r b o).1) := rfl
  exact (mergeNodes_extended hplaceholder hread ho.linked hcarries hb (fun _ hid => ho.lt_count hid) hon).1

theorem rooted_of_merge (hb : b.Rooted) (ho : o.Rooted) : (merge r b o).1.Rooted :=
  (merge_extended (G := fun _ => True) trivial (fun _ _ _ => trivial) hb ho fun _ _ => trivial).rooted hb

/-! ## What stays -/

theorem Extended.rootName_eq (h : Extended G b u) (hb : b.Rooted) : u.rootName = b.rootName := by
  rw [rootName, rootName, h.same_root, h.grown.name hb.root_lt_count]

theorem Extended.stays (h : Extended G b u) (hb : b.Rooted) (hx : x ∈ b.preorder) :
    x ∈ u.preorder ∧ u.fqn x = b.fqn x ∧ u.parent? x = b.parent? x := by
  obtain ⟨q, hq⟩ := (mem_preorder hb.linked).1 hx
  have hu := h.rooted hb
  have hroute : u.Route u.root q x := h.same_root ▸ h.grown.route hq
  refine ⟨(mem_preorder hu.linked).2 ⟨q, hroute⟩, ?_, h.grown.parent? (hb.lt_count hx)⟩
  rw [Forest.fqn_of_route hu.linked hu.root_top hroute, Forest.fqn_of_route hb.linked hb.root_top hq]
  exact congrArg (fun name => QualifiedName.ofSegments (name :: q)) (h.rootName_eq hb)

/-- **A node of the base that the overlay does not declare.** -/
def Undeclared (b o : Tree) (x : NodeId) : Prop :=
  x ∈ b.preorder ∧ ∀ y ∈ o.preorder, (o.node y).autogenerated = false → o.fqn y ≠ b.fqn x

/-- **What a merge leaves of a base**: no node goes, none moves, and one that the overlay does not declare keeps
its content. -/
structure Kept (b o t : Tree) : Prop where
  same_root : t.root = b.root
  stays : ∀ x ∈ b.preorder, x ∈ t.preorder ∧ t.fqn x = b.fqn x ∧ t.parent? x = b.parent? x
  kept : ∀ x, Undeclared b o x → (t.node x).content = (b.node x).content

theorem merge_kept (r : Registry) (hb : b.Rooted) (ho : o.Rooted) : Kept b o (merge r b o).1 := by
  have hon : (mergeNodes r o {} [] o.preorder).on b = ((merge r b o).2, (merge r b o).1) := rfl
  have hrun : Extended (fun _ => True) b (merge r b o).1 ∧
      ∀ x, Undeclared b o x → ((merge r b o).1.node x).content = (b.node x).content := by
    refine (mergeNodes_run
      (P := fun v => Extended (fun _ => True) b v ∧ ∀ x, Undeclared b o x → (v.node x).content = (b.node x).content)
      (fun {v id z m} hv hid hauto hfind hm => ?_) (fun {v v' fqn parent found} hv hparent => ?_)
      (fun {v v' fqn parent id z} hv hid hparent => ?_) ⟨.refl hb.linked, fun _ _ => rfl⟩ hon).1
    all_goals
      obtain ⟨hext, hkept⟩ := hv
      have hv := hext.rooted hb
    · refine ⟨hext.trans hb.linked (declareAt_extended (fun _ _ _ => trivial) hv hfind hm), fun x hx => ?_⟩
      -- a node that is found by a declared name has that name
      have hne : x ≠ z := by
        rintro rfl
        exact hx.2 id hid hauto ((fqn_of_find? hv hfind).symm.trans (hext.stays hb hx.1).2.1)
      rw [← hkept x hx, (sameShape_declareAt z m).other hne]
    · refine ⟨hext.trans hb.linked (ensureParent_extended trivial hv hparent).1, fun x hx => ?_⟩
      rw [← hkept x hx, (keeps_ensureParent hparent).content x (hv.lt_count (hext.stays hb hx.1).1)]
    · refine ⟨hext.trans hb.linked (graft_extended trivial ho.linked (fun _ _ => trivial) hv (ho.lt_count hid) hparent),
        fun x hx => ?_⟩
      have hgraft : Forest.Keeps v'.toForest (v'.graft o.toForest id z).1 := Forest.keeps_graft
      have hold := (hext.stays hb hx.1).1
      exact (((keeps_ensureParent hparent).trans hgraft).content x (hv.lt_count hold)).trans (hkept x hx)
  exact ⟨hrun.1.same_root, fun x hx => hrun.1.stays hb hx, hrun.2⟩

/-! ## Foreign nodes -/

/-- **No node is foreign to a base of the overlay's name.** -/
theorem merge_ne_foreign (hb : b.Rooted) (ho : o.Rooted) (hfound : o.SelfFound)
    (hname : o.rootName = b.rootName) {f n : String} :
    (merge r b o).2 ≠ .error (.foreignRoot f n) := by
  intro hforeign
  have hon : (mergeNodes r o {} [] o.preorder).on b = ((merge r b o).2, (merge r b o).1) := rfl
  have hrun := mergeNodes_extended (G := fun _ => True) trivial (fun _ _ _ => trivial) ho.linked (fun _ _ => trivial) hb
    (fun _ hid => ho.lt_count hid) hon
  obtain ⟨v, id, hv, hid, hfind, e, v', hparent⟩ := hrun.2 f n hforeign
  have hroot : v.rootName = o.rootName := (hv.rootName_eq hb).trans hname.symm
  obtain ⟨q, hq⟩ := (mem_preorder ho.linked).1 hid
  cases hq with
  | here =>
    rw [find?_of_segments (hroot ▸ hfound.segments_fqn ho .here)] at hfind
    cases hfind
  | down hp hc =>
    rw [hfound.parent?_fqn ho (hp.down hc) hp] at hparent
    obtain ⟨x, u', hok⟩ := ensureParent_ok (u := v) (o.fqn id) (hroot ▸ hfound.segments_fqn ho hp)
    rw [hok] at hparent
    cases hparent

end Tree
end SignalCatalog
