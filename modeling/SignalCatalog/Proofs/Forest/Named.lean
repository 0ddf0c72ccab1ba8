import Mathlib.Data.Set.Basic
import SignalCatalog.Proofs.Forest.Content
import SignalCatalog.Proofs.Forest.Subtree
import SignalCatalog.Proofs.QualifiedName
/-!
# Nodes found by their names

Where every node is found by its own qualified name, no name has a dot, siblings differ, and names are paths.
-/
namespace SignalCatalog
namespace Tree

open QualifiedName (segments DotFree)

variable {t t' : Tree} {x y : Nat} {q : List String} {name : String} {c : Content}

/-- **Every node of the tree is found by its own name.** -/
def SelfFound (t : Tree) : Prop := ∀ x ∈ t.preorder, t.find? (t.fqn x) = some x

theorem find?_of_segments (h : segments name = t.rootName :: q) : t.find? name = t.descend? t.root q := by
  rw [find?, h]
  exact if_pos rfl

theorem find?_of_first_ne (h : QualifiedName.first name ≠ t.rootName) : t.find? name = none := by
  rw [find?]
  cases hs : segments name with
  | nil => rfl
  | cons first rest => exact if_neg (QualifiedName.first_of_segments hs ▸ h)

theorem mem_preorder_of_find? (ht : t.Linked) (h : t.find? name = some x) : x ∈ t.preorder := by
  rw [find?] at h
  split at h
  · cases h
  · split at h
    · exact (mem_preorder ht).2 ⟨_, ht.route_of_descend? h⟩
    · cases h

theorem fqn_of_find? (ht : t.Rooted) (h : t.find? name = some x) : t.fqn x = name := by
  rw [find?] at h
  split at h
  · cases h
  · rename_i first rest hsegments
    split at h
    · rename_i hfirst
      rw [Forest.fqn_of_route ht.linked ht.root_top (ht.linked.route_of_descend? h),
        ← QualifiedName.ofSegments_segments name, hsegments, hfirst]
      rfl
    · cases h

theorem find?_eq_some (ht : t.Linked) (hs : t.SiblingsDiffer) (h : segments name = t.rootName :: q) :
    t.find? name = some x ↔ t.Route t.root q x := by
  rw [find?_of_segments h, ht.descend?_eq_some hs]

/-- **The segments of a name are the names on the way down.** -/
theorem SelfFound.segments_fqn (h : t.SelfFound) (ht : t.Rooted) (hx : t.Route t.root q x) :
    segments (t.fqn x) = t.rootName :: q := by
  have hfind := h x ((mem_preorder ht.linked).2 ⟨q, hx⟩)
  rw [find?] at hfind
  cases hs : segments (t.fqn x) with
  | nil =>
    rw [hs] at hfind
    cases hfind
  | cons first rest =>
    rw [hs] at hfind
    dsimp only at hfind
    split at hfind
    · rename_i hfirst
      rw [hfirst, ht.linked.route_unique (ht.linked.route_of_descend? hfind) hx]
    · cases hfind

theorem SelfFound.fqn_injective (h : t.SelfFound) (hx : x ∈ t.preorder) (hy : y ∈ t.preorder)
    (hxy : t.fqn x = t.fqn y) : x = y :=
  Option.some_inj.1 ((h x hx).symm.trans (hxy ▸ h y hy))

theorem SelfFound.siblingsDiffer (h : t.SelfFound) (ht : t.Rooted) :
    t.SiblingsDiffer := fun p c d ⟨q, hp⟩ hc hd hcd => by
  have hrc := hp.down hc
  have hrd := hp.down hd
  rw [← hcd] at hrd
  refine h.fqn_injective ((mem_preorder ht.linked).2 ⟨_, hrc⟩) ((mem_preorder ht.linked).2 ⟨_, hrd⟩) ?_
  rw [Forest.fqn_of_route ht.linked ht.root_top hrc, Forest.fqn_of_route ht.linked ht.root_top hrd]

theorem SelfFound.dotFree (h : t.SelfFound) (ht : t.Rooted) (hx : t.Route t.root q x) : DotFree (t.rootName :: q) :=
  h.segments_fqn ht hx ▸ QualifiedName.dotFree_segments _

theorem selfFound_of_dotFree (ht : t.Rooted) (hs : t.SiblingsDiffer)
    (hdot : ∀ q x, t.Route t.root q x → DotFree (t.rootName :: q)) :
    t.SelfFound := by
  intro x hx
  obtain ⟨q, hq⟩ := (mem_preorder ht.linked).1 hx
  refine (find?_eq_some ht.linked hs ?_).2 hq
  rw [Forest.fqn_of_route ht.linked ht.root_top hq]
  exact QualifiedName.segments_ofSegments (hdot q x hq) (by simp)

theorem SelfFound.parent?_fqn (h : t.SelfFound) (ht : t.Rooted) (hx : t.Route t.root (q ++ [name]) x)
    (hp : t.Route t.root q y) :
    QualifiedName.parent? (t.fqn x) = some (t.fqn y) := by
  refine QualifiedName.parent?_of_segments (s := name) ?_
  rw [h.segments_fqn ht hx, h.segments_fqn ht hp, List.cons_append]

theorem SelfFound.parent?_fqn_root (h : t.SelfFound) (ht : t.Rooted) : QualifiedName.parent? (t.fqn t.root) = none := by
  refine Option.eq_none_iff_forall_ne_some.2 fun p hp => ?_
  have hsegments := QualifiedName.segments_of_parent? hp
  rw [h.segments_fqn ht .here] at hsegments
  rcases List.append_eq_singleton_iff.1 hsegments.symm with ⟨hnil, -⟩ | ⟨-, hlast⟩
  · exact QualifiedName.segments_ne_nil p hnil
  · cases hlast

theorem SelfFound.eq_root_of_parent? (h : t.SelfFound) (ht : t.Rooted) (hx : x ∈ t.preorder)
    (hbare : QualifiedName.parent? (t.fqn x) = none) : x = t.root := by
  obtain ⟨q, hq⟩ := (mem_preorder ht.linked).1 hx
  cases hq with
  | here => rfl
  | down hp hc =>
    rw [h.parent?_fqn ht (hp.down hc) hp] at hbare
    cases hbare

/-- **The parent is the node of the parent's name.** -/
theorem SelfFound.parent?_iff (h : t.SelfFound) (ht : t.Rooted) (hx : x ∈ t.preorder) (hy : y ∈ t.preorder) :
    QualifiedName.parent? (t.fqn y) = some (t.fqn x) ↔ t.parent? y = some x := by
  obtain ⟨q, hq⟩ := (mem_preorder ht.linked).1 hy
  cases hq with
  | here => simp [h.parent?_fqn_root ht, ht.root_top]
  | down hp hy =>
    rw [h.parent?_fqn ht (hp.down hy) hp, hy, Option.some_inj, Option.some_inj]
    exact ⟨h.fqn_injective ((mem_preorder ht.linked).2 ⟨_, hp⟩) hx, congrArg _⟩

/-! ## What a tree says -/

/-- **The contents of a tree by qualified name.** -/
def described (t : Tree) : Set (String × Content) := {e | ∃ x ∈ t.preorder, e = (t.fqn x, (t.node x).content)}

theorem mem_described (ht : t.Rooted) (hs : t.SiblingsDiffer) :
    (name, c) ∈ t.described ↔ ∃ q, name = QualifiedName.ofSegments (t.rootName :: q) ∧ t.contents q = some c := by
  constructor
  · rintro ⟨x, hx, heq⟩
    obtain ⟨rfl, rfl⟩ := Prod.mk.inj heq
    obtain ⟨q, hq⟩ := (mem_preorder ht.linked).1 hx
    exact ⟨q, Forest.fqn_of_route ht.linked ht.root_top hq, Forest.content?_of_route ht.linked hs hq⟩
  · rintro ⟨q, rfl, hc⟩
    obtain ⟨x, hx, rfl⟩ := (Forest.content?_eq_some ht.linked hs).1 hc
    refine ⟨x, (mem_preorder ht.linked).2 ⟨q, hx⟩, ?_⟩
    rw [Forest.fqn_of_route ht.linked ht.root_top hx]
    rfl

theorem SelfFound.contents_eq_some (h : t.SelfFound) (ht : t.Rooted) :
    t.contents q = some c ↔ DotFree (t.rootName :: q) ∧
    (QualifiedName.ofSegments (t.rootName :: q), c) ∈ t.described := by
  have hs := h.siblingsDiffer ht
  have hdot {q : List String} {c : Content} (hc : t.contents q = some c) : DotFree (t.rootName :: q) := by
    obtain ⟨x, hx, -⟩ := (Forest.content?_eq_some ht.linked hs).1 hc
    exact h.dotFree ht hx
  rw [mem_described ht hs]
  constructor
  · exact fun hc => ⟨hdot hc, q, rfl, hc⟩
  · rintro ⟨hq, q', heq, hc⟩
    have hsegments := congrArg segments heq
    rw [QualifiedName.segments_ofSegments hq (by simp),
      QualifiedName.segments_ofSegments (hdot hc) (by simp)] at hsegments
    rwa [(List.cons.inj hsegments).2]

theorem SelfFound.described_eq_iff (h : t.SelfFound) (ht : t.Rooted) (h' : t'.SelfFound) (ht' : t'.Rooted)
    (hname : t'.rootName = t.rootName) :
    t'.described = t.described ↔ t'.contents = t.contents := by
  constructor
  · intro heq
    funext q
    refine Option.ext fun c => ?_
    rw [h.contents_eq_some ht, h'.contents_eq_some ht', hname, heq]
  · intro heq
    ext ⟨name, c⟩
    rw [mem_described ht (h.siblingsDiffer ht), mem_described ht' (h'.siblingsDiffer ht'), hname, heq]

end Tree
end SignalCatalog
