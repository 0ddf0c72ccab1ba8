import SignalCatalog.Proofs.Merge.Graft
import SignalCatalog.Proofs.Merge.Steps
/-!
# A merge under way

What the base holds when some nodes of the overlay have been visited: path by path, from the base as it was and those
nodes.
-/
namespace SignalCatalog
namespace Tree

variable {r : Registry} {b o u u' : Tree} {y z id x : Nat} {q s : List String} {done rest grafted : List Nat}
  {stats : MergeStats} {p : Payload} {name : String} {c : Content}

/-- What was at a path of the base is refined by the own node that was visited there, or as it was. -/
def Merging.RefinedBy (r : Registry) (o : Tree) (done : List NodeId) (q : List String) (c c' : Content) : Prop :=
  (∀ y ∈ done, o.Route o.root q y → (o.node y).autogenerated = false →
    Payload.refine r c.payload (o.node y).payload = .ok c'.payload ∧ c'.autogenerated = false) ∧
  ((∀ y ∈ done, o.Route o.root q y → (o.node y).autogenerated = true) → c' = c)

/-- **A base into which some nodes of an overlay have been merged.** -/
structure Merging.Underway (r : Registry) (b o : Tree) (done grafted : List NodeId) (u : Tree) : Prop where
  rooted : u.Rooted
  nodup : b.ChildrenNodup → u.ChildrenNodup
  siblingsDiffer : u.SiblingsDiffer
  same_root : u.root = b.root
  grown : Forest.Grown b.root b.toForest u.toForest
  mem_grafted : ∀ y, y ∈ grafted ↔ ∃ z ∈ done, isNew b o z = true ∧ o.Below z y
  grafted_nodup : grafted.Nodup
  grafted_length : grafted.length = ((done.filter (isGraftTop b o)).map o.size).sum
  old : ∀ q c, b.contents q = some c → ∃ c', u.contents q = some c' ∧ Merging.RefinedBy r o done q c c'
  copied : ∀ y ∈ grafted, ∀ q, o.Route o.root q y → u.contents q = some (o.node y).content
  /-- What is new is a copy, or a placeholder where the overlay has one. -/
  fresh : ∀ q, b.contents q = none → u.contents q ≠ none →
    ∃ y, o.Route o.root q y ∧ (y ∈ grafted ∨ (o.node y).autogenerated = true ∧ u.contents q = some .placeholder)

theorem Merging.RefinedBy.snoc {c' : Content} (h : Merging.RefinedBy r o done q c c')
    (hid : o.Route o.root q id → (o.node id).autogenerated = true) : Merging.RefinedBy r o (done ++ [id]) q c c' := by
  obtain ⟨hdone, hsame⟩ := h
  refine ⟨?_, fun hall => hsame fun y hy => hall y (List.mem_append_left _ hy)⟩
  intro y hy hry hauto
  rcases List.mem_append.1 hy with hy | hy
  · exact hdone y hy hry hauto
  · rw [List.mem_singleton] at hy
    subst hy
    rw [hid hry] at hauto
    cases hauto

namespace Merging.Underway

theorem start (h : Mergeable b o) : Merging.Underway r b o [] [] b where
  rooted := h.base
  nodup := id
  siblingsDiffer := h.base_found.siblingsDiffer h.base
  same_root := rfl
  grown := .refl h.base.linked
  mem_grafted := by simp
  grafted_nodup := List.nodup_nil
  grafted_length := rfl
  old := fun q c hc => ⟨c, hc, by simp [RefinedBy]⟩
  copied := by simp
  fresh := fun q hnone hsome => absurd hnone hsome

variable (h : Merging.Underway r b o done grafted u) (hm : Aligned b o) (hsplit : o.preorder = done ++ id :: rest)

/-! ## Nodes that leave the base alone -/

include h hm

omit hm in
theorem mem_grafted_snoc (hnew : isNew b o id = true → id ∈ grafted) (y : Nat) :
    y ∈ grafted ↔ ∃ z ∈ done ++ [id], isNew b o z = true ∧ o.Below z y := by
  rw [h.mem_grafted]
  constructor
  · rintro ⟨z, hz, hrest⟩
    exact ⟨z, List.mem_append_left _ hz, hrest⟩
  · rintro ⟨z, hz, hz', hbelow⟩
    rcases List.mem_append.1 hz with hz | hz
    · exact ⟨z, hz, hz', hbelow⟩
    · -- a new node that was copied came below another one
      rw [List.mem_singleton] at hz
      subst hz
      obtain ⟨w, hw, hw', hwz⟩ := (h.mem_grafted z).1 (hnew hz')
      exact ⟨w, hw, hw', hwz.trans hbelow⟩

omit hm in
theorem grafted_length_snoc (htop : isGraftTop b o id = false) :
    grafted.length = (((done ++ [id]).filter (isGraftTop b o)).map o.size).sum := by
  rw [h.grafted_length, List.filter_append]
  simp [htop]

theorem pass (hnew : isNew b o id = true → id ∈ grafted) (htop : isGraftTop b o id = false)
    (hrefines : refines b o id = false) : Merging.Underway r b o (done ++ [id]) grafted u where
  rooted := h.rooted
  nodup := h.nodup
  siblingsDiffer := h.siblingsDiffer
  same_root := h.same_root
  grown := h.grown
  mem_grafted := h.mem_grafted_snoc hnew
  grafted_nodup := h.grafted_nodup
  grafted_length := h.grafted_length_snoc htop
  old := by
    intro q c hc
    obtain ⟨c', hc', hrefined⟩ := h.old q c hc
    refine ⟨c', hc', hrefined.snoc fun hid => ?_⟩
    by_contra hauto
    have := (hm.refines_iff hid).2 ⟨by simpa using hauto, by simp [hc]⟩
    rw [hrefines] at this
    cases this
  copied := h.copied
  fresh := h.fresh

/-! ## Nodes that refine the base -/

/-- What is in the base already was there, or came with a copy, or stands for a placeholder. -/
theorem contents_ne_none (hid : o.Route o.root q id) (hauto : (o.node id).autogenerated = false) (hnot : id ∉ grafted)
    (hsome : u.contents q ≠ none) : b.contents q ≠ none := by
  intro hnone
  obtain ⟨y, hy, hy'⟩ := h.fresh q hnone hsome
  obtain rfl := hm.overlay.linked.route_right_unique (hm.overlay_found.siblingsDiffer hm.overlay.toRooted) hy hid
  rcases hy' with hy' | ⟨hy', -⟩
  · exact hnot hy'
  · rw [hauto] at hy'
    cases hy'

include hsplit in
theorem contents_eq (hid : o.Route o.root q id) (hc : b.contents q = some c) : u.contents q = some c := by
  obtain ⟨c', hc', hrefined⟩ := h.old q c hc
  rw [hc', hrefined.2 fun y hy hry => ?_]
  obtain rfl := hm.overlay.linked.route_right_unique (hm.overlay_found.siblingsDiffer hm.overlay.toRooted) hry hid
  exact absurd hy (not_mem_done hm.overlay hsplit)

include hsplit in
theorem contents_base (hid : o.Route o.root q id) (hfree : u.contents q = none) : b.contents q = none := by
  by_contra hsome
  obtain ⟨c, hc⟩ := Option.ne_none_iff_exists'.1 hsome
  rw [h.contents_eq hm hsplit hid hc] at hfree
  cases hfree

include hsplit in
/-- **A node that refines one of the base.** -/
theorem refine_step (hid : o.Route o.root q id) (hauto : (o.node id).autogenerated = false) (hnot : id ∉ grafted)
    (hx : u.Route u.root q x) {merged : Payload}
    (hmerged : Payload.refine r (u.node x).payload (o.node id).payload = .ok merged) :
    Merging.Underway r b o (done ++ [id]) grafted (u.declareAt x merged) := by
  have hud := hm.overlay_found.siblingsDiffer hm.overlay.toRooted
  have hux := Forest.content?_of_route h.rooted.linked h.siblingsDiffer hx
  obtain ⟨c, hc⟩ := Option.ne_none_iff_exists'.1 (h.contents_ne_none hm hid hauto hnot (by simp [hux]))
  have hcx : (u.node x).content = c := Option.some_inj.1 (hux.symm.trans (h.contents_eq hm hsplit hid hc))
  have hcontents := contents_declareAt (p := merged) h.rooted h.siblingsDiffer hx
  have hshape := sameShape_declareAt (u := u) x merged
  have hnew : isNew b o id = false := by
    rw [← Bool.not_eq_true, hm.isNew_iff hid]
    simp [hc]
  have htop : isGraftTop b o id = false := by simp [isGraftTop, hnew]
  have huniq {y : Nat} (hy : o.Route o.root q y) : y = id := hm.overlay.linked.route_right_unique hud hy hid
  refine ⟨h.rooted.declareAt x merged, fun hn => childrenNodup_declareAt (h.nodup hn) x merged,
    hshape.distinct h.siblingsDiffer, h.same_root,
    h.grown.trans hm.base.linked (((hshape.grown h.rooted.linked).mono (h.same_root ▸ ⟨q, hx⟩))),
    h.mem_grafted_snoc (by simp [hnew]), h.grafted_nodup, h.grafted_length_snoc htop,
    fun q' c' hc' => ?_, fun y hy q' hq' => ?_, fun q' hnone hsome => ?_⟩
  · rw [hcontents]
    by_cases hq : q' = q
    · -- only the content at the place of the node changes, and only that node of the overlay stands there
      subst hq
      obtain rfl := Option.some_inj.1 (hc.symm.trans hc')
      refine ⟨_, if_pos rfl, fun y hy hry _ => ?_, fun hall => ?_⟩
      · rw [huniq hry, ← hcx]
        exact ⟨hmerged, rfl⟩
      · have := hall id (by simp) hid
        rw [hauto] at this
        cases this
    · rw [if_neg hq]
      obtain ⟨c'', hc'', hrefined⟩ := h.old q' c' hc'
      exact ⟨c'', hc'', hrefined.snoc fun hry => absurd (hm.overlay.linked.route_unique hry hid) hq⟩
  · rw [hcontents, if_neg ?_]
    · exact h.copied y hy q' hq'
    · rintro rfl
      exact hnot (huniq hq' ▸ hy)
  · rw [hcontents] at hsome ⊢
    have hq : q' ≠ q := by
      rintro rfl
      rw [hc] at hnone
      cases hnone
    rw [if_neg hq] at hsome ⊢
    exact h.fresh q' hnone hsome

/-! ## Nodes that are copied -/

include hsplit

theorem isGraftTop_of_new (hnew : isNew b o id = true) (hnot : id ∉ grafted) : isGraftTop b o id = true := by
  refine hm.isGraftTop_iff.2 ⟨hnew, fun z hz hz' hbelow => ?_⟩
  by_contra hne
  exact hnot ((h.mem_grafted id).2 ⟨z, mem_done_of_below hm.overlay hsplit hz hbelow hne, hz', hbelow⟩)

theorem not_below_grafted (hnot : id ∉ grafted) (hy : y ∈ grafted) : ¬ o.Below id y := by
  intro hbelow
  obtain ⟨z, hz, hz', ⟨s, hzy⟩⟩ := (h.mem_grafted y).1 hy
  rcases hzy.below_or_above hbelow with hzid | hidz
  · exact hnot ((h.mem_grafted id).2 ⟨z, hz, hz', hzid⟩)
  · exact not_below_done hm.overlay hsplit hz hidz

section Grafting

variable {r' : Tree × NodeId} (hid : o.Route o.root (q ++ [name]) id) (hnot : id ∉ grafted)
  (hfree : u.contents (q ++ [name]) = none) (hensured : Ensured u.root q u r')
include hid hfree hensured

omit hsplit in
theorem contents_graftAt (s : List String) : (graftAt r' o id).contents s =
    if q ++ [name] <+: s then o.content? id (s.drop (q ++ [name]).length)
    else if s <+: q ∧ u.contents s = none then some .placeholder else u.contents s := by
  obtain ⟨_, _, _, hname⟩ := hid.of_snoc
  have hos : o.DistinctBelow id := (hm.overlay_found.siblingsDiffer hm.overlay.toRooted).mono ⟨_, hid⟩
  exact hensured.contents_graftAt h.rooted hm.overlay hos hname hfree s

/-- **A copy covers nothing of the base.** -/
theorem old_graft (s : List String) {c : Content} (hc : b.contents s = some c) :
    ∃ c', (graftAt r' o id).contents s = some c' ∧ RefinedBy r o (done ++ [id]) s c c' := by
  obtain ⟨c', hc', hrefined⟩ := h.old s c hc
  have hpre : ¬ q ++ [name] <+: s := by
    rintro ⟨s', rfl⟩
    rw [contents_append_eq_none (h.contents_base hm hsplit hid hfree) s'] at hc
    cases hc
  refine ⟨c', ?_, hrefined.snoc fun hry => absurd (hm.overlay.linked.route_unique hid hry ▸ List.prefix_refl _) hpre⟩
  rw [h.contents_graftAt hm hid hfree hensured, if_neg hpre, if_neg (by simp [hc']), hc']

include hnot in
theorem copied_graft (hy : y ∈ grafted ++ o.subtree id) {s : List String} (hs : o.Route o.root s y) :
    (graftAt r' o id).contents s = some (o.node y).content := by
  have hlinked := hm.overlay.linked
  have hud := hm.overlay_found.siblingsDiffer hm.overlay.toRooted
  rw [h.contents_graftAt hm hid hfree hensured]
  rcases List.mem_append.1 hy with hy | hy
  · have hold := h.copied y hy s hs
    have hpre : ¬ q ++ [name] <+: s := by
      rintro ⟨s', rfl⟩
      obtain ⟨z, hz, hzy⟩ := hs.of_append
      rw [← hlinked.route_right_unique hud hid hz] at hzy
      exact h.not_below_grafted hm hsplit hnot hy ⟨s', hzy⟩
    rw [if_neg hpre, if_neg (by simp [hold]), hold]
  · obtain ⟨s', hs'⟩ := hlinked.mem_subtree.1 hy
    obtain rfl := hlinked.route_unique (hid.trans hs') hs
    rw [if_pos (List.prefix_append _ _), List.drop_left, Forest.content?_of_route hlinked (hud.mono ⟨_, hid⟩) hs']

include hnot in
theorem fresh_graft {s : List String} (hnone : b.contents s = none) (hsome : (graftAt r' o id).contents s ≠ none) :
    ∃ y, o.Route o.root s y ∧ (y ∈ grafted ++ o.subtree id ∨
      (o.node y).autogenerated = true ∧ (graftAt r' o id).contents s = some .placeholder) := by
  have hlinked := hm.overlay.linked
  rw [h.contents_graftAt hm hid hfree hensured] at hsome ⊢
  split at hsome
  · rename_i hpre
    obtain ⟨s, rfl⟩ := hpre
    rw [List.drop_left] at hsome
    obtain ⟨c, hc⟩ := Option.ne_none_iff_exists'.1 hsome
    have hos : o.DistinctBelow id := (hm.overlay_found.siblingsDiffer hm.overlay.toRooted).mono ⟨_, hid⟩
    obtain ⟨y, hy, -⟩ := (Forest.content?_eq_some hlinked hos).1 hc
    exact ⟨y, hid.trans hy, .inl (List.mem_append_right _ (hlinked.mem_subtree.2 ⟨s, hy⟩))⟩
  · rename_i hpre
    rw [if_neg hpre]
    split at hsome
    · -- a placeholder is made where the overlay has one: any other ancestor would have been copied
      rename_i hmissing
      obtain ⟨s', hs'⟩ := hmissing.1
      subst hs'
      rw [List.append_assoc] at hid
      obtain ⟨y, hy, hyid⟩ := hid.of_append
      refine ⟨y, hy, .inr ⟨?_, if_pos hmissing⟩⟩
      by_contra hyauto
      have hynew := (hm.isNew_iff hy).2 ⟨by simpa using hyauto, hnone⟩
      have hne : y ≠ id := by
        rintro rfl
        exact absurd (hlinked.route_self hyid) (by simp)
      have hdone := mem_done_of_below hm.overlay hsplit ((mem_preorder hlinked).2 ⟨_, hy⟩) ⟨_, hyid⟩ hne
      exact hnot ((h.mem_grafted _).2 ⟨y, hdone, hynew, ⟨_, hyid⟩⟩)
    · rename_i hmissing
      rw [if_neg hmissing]
      obtain ⟨y, hy, hy'⟩ := h.fresh s hnone hsome
      exact ⟨y, hy, hy'.imp_left (List.mem_append_left _)⟩

include hnot in
/-- **A node whose subtree is copied.** -/
theorem graft_step (hauto : (o.node id).autogenerated = false) :
    Merging.Underway r b o (done ++ [id]) (grafted ++ o.subtree id) (graftAt r' o id) := by
  have hlinked := hm.overlay.linked
  obtain ⟨_, _, _, hname⟩ := hid.of_snoc
  have hos : o.DistinctBelow id := (hm.overlay_found.siblingsDiffer hm.overlay.toRooted).mono ⟨_, hid⟩
  have hgrown := hensured.grown_graftAt h.rooted hm.overlay hos hname hfree
  obtain ⟨hrooted, hdiffer⟩ := hensured.rooted_graftAt h.rooted hm.overlay hos hname hfree
  have hnodup := (hensured.filled_graftAt h.rooted hm.overlay hos hname hfree).1
  have hnew := (hm.isNew_iff hid).2 ⟨hauto, h.contents_base hm hsplit hid hfree⟩
  have htop := h.isGraftTop_of_new hm hsplit hnew hnot
  refine ⟨hrooted, fun hn => hnodup (h.nodup hn), hdiffer, hensured.same_root.trans h.same_root,
    h.grown.trans hm.base.linked (h.same_root ▸ hgrown), fun y => ?_, ?_, ?_,
    fun s c hc => h.old_graft hm hsplit hid hfree hensured s hc,
    fun y hy s hs => h.copied_graft hm hsplit hid hnot hfree hensured hy hs,
    fun s hnone hsome => h.fresh_graft hm hsplit hid hnot hfree hensured hnone hsome⟩
  · rw [List.mem_append, h.mem_grafted, hlinked.mem_subtree]
    simp only [List.mem_append, List.mem_singleton, or_and_right, exists_or, exists_eq_left, hnew, true_and]
  · refine List.nodup_append.2 ⟨h.grafted_nodup, hlinked.nodup_subtree hm.overlay.children_nodup, fun y hy z hz => ?_⟩
    rintro rfl
    exact h.not_below_grafted hm hsplit hnot hy (hlinked.mem_subtree.1 hz)
  · rw [List.length_append, h.grafted_length, List.filter_append, List.map_append, List.sum_append]
    simp [htop, Forest.size]

end Grafting

end Merging.Underway

end Tree
end SignalCatalog
