import SignalCatalog.Proofs.Expand.Branch
import SignalCatalog.Proofs.Forest.Check
/-!
# What an expansion leaves behind

The contents of an expanded branch spelled out path by path: what is left of it, the instances and the copies, each of
them once, and nothing else in the tree is touched.
-/
namespace SignalCatalog
namespace Tree

variable {t t' : Tree} {n x created : Nat} {levels : List (List String)} {q : List String} {c : Content}

/-- **A path of a copy**: a path of the template below an innermost instance. -/
def IsCopy (t : Tree) (n : NodeId) (levels : List (List String)) (q : List String) : Prop :=
  ∃ leaf p, Level.IsInnermost levels leaf ∧ t.templateContents n levels p ≠ none ∧ q = leaf ++ p

/-! ## The layers of an expansion -/

abbrev copies (t : Tree) (n : NodeId) (levels : List (List String)) : Layer :=
  (t.templateContents n levels).spread (Level.leaves levels [[]])

theorem copies_append (hdup : ∀ names ∈ levels, names.Nodup) {leaf p : List String}
    (hleaf : Level.IsInnermost levels leaf) :
    t.copies n levels (leaf ++ p) = t.templateContents n levels p :=
  Layer.spread_append (Level.nodup_leaves hdup (List.nodup_singleton _))
    (fun _ hp => (Level.mem_leaves_iff.1 hp).length_eq) (Level.mem_leaves_iff.2 hleaf)

theorem isCopy_iff (hdup : ∀ names ∈ levels, names.Nodup) : t.IsCopy n levels q ↔ t.copies n levels q ≠ none := by
  constructor
  · rintro ⟨leaf, p, hleaf, hp, rfl⟩
    rwa [copies_append hdup hleaf]
  · intro h
    obtain ⟨c, hc⟩ := Option.ne_none_iff_exists'.1 h
    obtain ⟨leaf, hleaf, p, rfl, hp⟩ := Layer.exists_of_spread hc
    exact ⟨leaf, p, Level.mem_leaves_iff.1 hleaf, by simp [hp], rfl⟩

/-- The template itself is at no path of its own length zero, so copies lie deeper than instances. -/
theorem not_isInstance_of_isCopy (h : t.IsCopy n levels q) : ¬ Level.IsInstance levels q := by
  obtain ⟨leaf, p, hleaf, hp, rfl⟩ := h
  intro hq
  have hlen := hq.length_le
  rw [List.length_append, hleaf.length_eq] at hlen
  obtain rfl : p = [] := List.length_eq_zero_iff.1 (by omega)
  exact hp rfl

theorem expandedContents_ne_none (hdup : ∀ names ∈ levels, names.Nodup) : t.expandedContents n levels q ≠ none ↔
    t.restContents n levels q ≠ none ∨ Level.IsInstance levels q ∨ t.IsCopy n levels q := by
  rw [isCopy_iff hdup, ← Level.mem_paths_iff, ne_eq, expandedContents, Layer.fill_eq_none, Layer.fill_eq_none]
  have hmark : Layer.mark (instanceContent (t.node n).payload.clearInstances) (Level.paths levels [[]]) q = none ↔
      q ∉ Level.paths levels [[]] := by
    rw [Layer.mark]
    split <;> simp_all
  rw [hmark]
  tauto

theorem expandedContents_kept (hdup : ∀ names ∈ levels, names.Nodup) (hc : t.restContents n levels q = some c)
    (hkeep : c.autogenerated = false ∨ ¬ Level.IsInstance levels q ∧ ¬ t.IsCopy n levels q) :
    t.expandedContents n levels q = some c := by
  rw [expandedContents]
  rcases hkeep with hauto | ⟨hinstance, hcopy⟩
  · have hkept : ∀ {l o : Layer}, l q = some c → l.fill o q = some c := fun {l o} hl => by
      cases ho : o q with
      | none => rwa [Layer.fill_of_none ho]
      | some d => rw [Layer.fill_of_some ho, hl, Content.onto, hauto]; rfl
    exact hkept (hkept hc)
  · rw [isCopy_iff hdup, not_not] at hcopy
    rw [Layer.fill_of_none hcopy, Layer.fill_of_none (Layer.mark_of_not_mem (mt Level.mem_paths_iff.1 hinstance)), hc]

theorem expandedContents_instance (hdup : ∀ names ∈ levels, names.Nodup) (hq : Level.IsInstance levels q)
    (hold : ∀ c, t.restContents n levels q = some c → c.autogenerated = true) :
    t.expandedContents n levels q = some (instanceContent (t.node n).payload.clearInstances) := by
  have hcopy : t.copies n levels q = none := by
    have hno : ¬ t.IsCopy n levels q := fun hc => not_isInstance_of_isCopy hc hq
    rwa [isCopy_iff hdup, not_not] at hno
  rw [expandedContents, Layer.fill_of_none hcopy, Layer.fill_of_some (Layer.mark_of_mem (Level.mem_paths_iff.2 hq))]
  cases hc : t.restContents n levels q with
  | none => rfl
  | some c => rw [Content.onto, hold c hc]; rfl

theorem expandedContents_copy (hdup : ∀ names ∈ levels, names.Nodup) {leaf p : List String}
    (hleaf : Level.IsInnermost levels leaf) (hp : t.templateContents n levels p = some c)
    (hold : ∀ d, t.restContents n levels (leaf ++ p) = some d → d.autogenerated = true) :
    ∃ d, t.expandedContents n levels (leaf ++ p) = some d ∧ d.payload = c.payload := by
  have hinstance := not_isInstance_of_isCopy (t := t) (n := n) ⟨leaf, p, hleaf, by simp [hp], rfl⟩
  rw [expandedContents, Layer.fill_of_some ((copies_append hdup hleaf).trans hp),
    Layer.fill_of_none (Layer.mark_of_not_mem (mt Level.mem_paths_iff.1 hinstance))]
  refine ⟨_, rfl, ?_⟩
  cases hd : t.restContents n levels (leaf ++ p) with
  | none => rfl
  | some d => rw [Content.onto, hold d hd]; rfl

/-! ## The tree afterwards -/

theorem route_rest_of_regrown (hre : Forest.Regrown (t.template n levels) n t.toForest t'.toForest) (ht : t.WellFormed)
    (hd : t.DistinctBelow n) (hr : t.Route n q x) (hrest : t.restContents n levels q ≠ none) : t'.Route n q x := by
  have hcs : ∀ c ∈ t.template n levels, t.parent? c = some n := fun _ hc => parent?_of_mem_template ht.linked hc
  have hnone : t.templateContents n levels q = none := by
    by_contra hq
    rw [restContents, if_neg hq] at hrest
    exact hrest rfl
  exact hre.route ht.linked hr ((Forest.contents?_eq_none_iff ht.linked hd hcs hr).1 hnone)

/-- Outside a branch that has grown anew no node changes, none goes and none comes. -/
theorem outside_of_regrown {cs : List NodeId} (hre : Forest.Regrown cs n t.toForest t'.toForest)
    (hroot : t'.root = t.root) (ht : t.WellFormed) (hn : t.Below t.root n) :
    (∀ x ∈ t.preorder, ¬ t.Below n x → x ∈ t'.preorder ∧ ¬ t'.Below n x ∧ t'.node x = t.node x) ∧
      ∀ x ∈ t'.preorder, ¬ t'.Below n x → x ∈ t.preorder ∧ ¬ t.Below n x := by
  simp only [mem_preorder ht.linked, mem_preorder hre.linked, hroot]
  constructor
  · rintro x ⟨q, hq⟩ hx
    have hlt := hq.lt_count ht.root_lt_count
    refine ⟨⟨q, hre.route ht.linked hq fun c hc hcx => hx ?_⟩, fun ⟨r, hr⟩ => hx ⟨r, hre.route_back ht.linked hlt hr⟩,
      hre.outside ht.linked hlt hx⟩
    exact (Forest.Below.refl.down (hre.child c hc)).trans hcx
  · rintro x ⟨q, hq⟩ hx
    have hlt : x < t.count := by
      by_contra hlt
      exact hx (hre.fresh (Nat.le_of_not_lt hlt) (hq.lt_count (Nat.lt_of_lt_of_le ht.root_lt_count hre.count_le)))
    exact ⟨⟨q, hre.route_back ht.linked hlt hq⟩, fun hx' => hx (hre.below_of_route ht.linked hn hx' hq hlt)⟩

namespace Expanded

variable (h : t.Expanded n levels t')
include h

theorem content?_eq :
    t'.content? n q = if q = [] then some ⟨(t.node n).payload.clearInstances, (t.node n).autogenerated⟩
    else t.expandedContents n levels q := by
  cases q with
  | nil => rw [if_pos rfl, Forest.content?_nil, h.own]
  | cons name q => rw [if_neg (by simp), h.below]

theorem content?_ne_none : t'.content? n q ≠ none ↔ t.expandedContents n levels q ≠ none := by
  rw [h.content?_eq]
  split
  · rename_i hq
    simp [hq, expandedContents_nil]
  · rfl

variable (ht : t.WellFormed)
include ht

theorem route_rest (hd : t.DistinctBelow n) (hr : t.Route n q x) (hrest : t.restContents n levels q ≠ none) :
    t'.Route n q x := route_rest_of_regrown h.regrown ht hd hr hrest

theorem wellFormed : t'.WellFormed where
  linked := h.regrown.linked
  children_nodup := h.nodup
  root_top := by
    rw [h.same_root, h.regrown.parent? ht.root_lt_count, ht.root_top]
    exact ite_self none
  root_lt_count := by
    rw [h.same_root]
    exact Nat.lt_of_lt_of_le ht.root_lt_count h.regrown.count_le

/-- **The nodes of the tree that are no longer new**: those of the tree without the template. -/
theorem mem_preorder_iff : x ∈ t'.preorder ∧ x ∈ t.preorder ↔ x ∈ (t.withoutTemplate n levels).preorder := by
  have hcut := cut_withoutTemplate ht.linked n levels
  rw [mem_preorder h.regrown.linked, mem_preorder ht.linked, mem_preorder (hcut.linked ht.linked), h.same_root]
  constructor
  · rintro ⟨hx', hx⟩
    exact (h.grown.below_iff (hcut.linked ht.linked) (by rw [hcut.count]; exact hx.lt_count ht.root_lt_count)).1 hx'
  · exact fun hx => ⟨h.grown.below hx, hcut.below ht.linked hx⟩

theorem nodeCount_sub : t'.nodeCount - (t.withoutTemplate n levels).nodeCount =
    (t'.preorder.filter fun x => x ∉ t.preorder).length := by
  have hcut := cut_withoutTemplate ht.linked n levels
  have hperm : (t'.preorder.filter fun x => x ∈ t.preorder).Perm (t.withoutTemplate n levels).preorder := by
    refine (List.perm_ext_iff_of_nodup (h.regrown.linked.nodup_subtree h.nodup |>.filter _)
      ((hcut.linked ht.linked).nodup_subtree (hcut.childrenNodup ht.children_nodup))).2 fun x => ?_
    rw [List.mem_filter, decide_eq_true_iff]
    exact h.mem_preorder_iff ht
  have hsplit := List.length_eq_length_filter_add (l := t'.preorder) fun x => decide (x ∈ t.preorder)
  rw [nodeCount, nodeCount, hsplit, hperm.length_eq, Nat.add_sub_cancel_left]
  simp only [decide_not]

theorem below_root (hn : t.Below t.root n) : t'.Below t'.root n := by
  rw [h.same_root]
  exact h.regrown.below_branch ht.linked hn

theorem not_below_root (hd : t.DistinctBelow n) (hn : t.Below t.root n) (hr : t.Route n q x)
    (hq : t.templateContents n levels q ≠ none) :
    ¬ t'.Below t'.root x := by
  intro hx
  have hcs : ∀ c ∈ t.template n levels, t.parent? c = some n := fun _ hc => parent?_of_mem_template ht.linked hc
  rw [h.same_root] at hx
  refine hq ((Forest.contents?_eq_none_iff ht.linked hd hcs hr).2 ?_)
  exact h.regrown.not_below_of_cut ht.linked hn (hr.lt_count (hn.lt_count ht.root_lt_count)) hx

theorem siblingsDiffer (hs : t.SiblingsDiffer) : t'.SiblingsDiffer := by
  have hcut := cut_withoutTemplate ht.linked n levels
  have := h.grown.distinct (hcut.linked ht.linked) (hcut.distinct ht.linked hs) h.distinct
  rwa [SiblingsDiffer, h.same_root]

end Expanded

/-- **The tree after a branch is expanded**, told from the tree before it. -/
structure ExactlyExpanded (t : Tree) (n : NodeId) (levels : List (List String)) (created : Nat) (t' : Tree) : Prop where
  same_root : t'.root = t.root
  wellFormed : t'.WellFormed
  siblingsDiffer : t'.SiblingsDiffer
  /-- Below the branch there are what is left of it, the instances and the copies, and nothing else. -/
  paths : ∀ q, (∃ x, t'.Route n q x) ↔ t.restContents n levels q ≠ none ∨
    Level.IsInstance levels q ∨ t.IsCopy n levels q
  once : (t'.subtree n).Nodup ∧ ∀ q x y, t'.Route n q x → t'.Route n q y → x = y
  /-- What is left of the branch is made of the same nodes as before. -/
  stays : ∀ q x, t.Route n q x → t.restContents n levels q ≠ none → t'.Route n q x
  keeps : ∀ q x c, q ≠ [] → t'.Route n q x → t.restContents n levels q = some c →
    (c.autogenerated = false ∨ ¬ Level.IsInstance levels q ∧ ¬ t.IsCopy n levels q) → (t'.node x).content = c
  instances : ∀ q x, t'.Route n q x → Level.IsInstance levels q →
    (∀ c, t.restContents n levels q = some c → c.autogenerated = true) →
    (t'.node x).content = ⟨(t.node n).payload.clearInstances, false⟩
  copies : ∀ leaf p x c, t'.Route n (leaf ++ p) x → Level.IsInnermost levels leaf →
    t.templateContents n levels p = some c →
    (∀ d, t.restContents n levels (leaf ++ p) = some d → d.autogenerated = true) → (t'.node x).payload = c.payload
  own : (t'.node n).content = ⟨(t.node n).payload.clearInstances, (t.node n).autogenerated⟩
  /-- Outside the branch no node changes, none goes and none comes. -/
  outside : (∀ x ∈ t.preorder, ¬ t.Below n x → x ∈ t'.preorder ∧ ¬ t'.Below n x ∧ t'.node x = t.node x) ∧
    ∀ x ∈ t'.preorder, ¬ t'.Below n x → x ∈ t.preorder ∧ ¬ t.Below n x
  created : created = (t'.preorder.filter fun x => x ∉ t.preorder).length

theorem Expanded.outside (h : t.Expanded n levels t') (ht : t.WellFormed) (hn : t.Below t.root n) :
    (∀ x ∈ t.preorder, ¬ t.Below n x → x ∈ t'.preorder ∧ ¬ t'.Below n x ∧ t'.node x = t.node x) ∧
      ∀ x ∈ t'.preorder, ¬ t'.Below n x → x ∈ t.preorder ∧ ¬ t.Below n x :=
  outside_of_regrown h.regrown h.same_root ht hn

theorem Expanded.exact (h : t.Expanded n levels t') (ht : t.WellFormed) (hs : t.SiblingsDiffer) (hn : t.Below t.root n)
    (hdup : ∀ names ∈ levels, names.Nodup) :
    t.ExactlyExpanded n levels (t'.nodeCount - (t.withoutTemplate n levels).nodeCount) t' := by
  have hd := hs.mono hn
  have hnode {q : List String} {x : Nat} (hx : t'.Route n q x) : t'.content? n q = some (t'.node x).content :=
    Forest.content?_of_route h.regrown.linked h.distinct hx
  have hat {q : List String} {x : Nat} {c : Content} (hq : q ≠ []) (hx : t'.Route n q x)
      (hc : t.expandedContents n levels q = some c) : (t'.node x).content = c := by
    have hx := hnode hx
    rw [h.content?_eq, if_neg hq, hc, Option.some_inj] at hx
    exact hx.symm
  refine ⟨h.same_root, h.wellFormed ht, h.siblingsDiffer ht hs, fun q => ?_, ⟨h.regrown.linked.nodup_subtree h.nodup,
    fun q x y hx hy => h.regrown.linked.route_right_unique h.distinct hx hy⟩, fun q x hx hq => h.route_rest ht hd hx hq,
    fun q x c hq hx hc hkeep => ?_, fun q x hx hq hold => ?_, fun leaf p x c hx hleaf hp hold => ?_,
    h.own, h.outside ht hn,
    h.nodeCount_sub ht⟩
  · rw [← expandedContents_ne_none hdup, ← h.content?_ne_none, ne_eq,
      Forest.content?_eq_none h.regrown.linked h.distinct, not_forall_not]
  · exact hat hq hx (expandedContents_kept hdup hc hkeep)
  · exact hat hq.1 hx (expandedContents_instance hdup hq hold)
  · obtain ⟨d, hd, hpayload⟩ := expandedContents_copy hdup hleaf hp hold
    have hne : leaf ++ p ≠ [] := by
      rintro hnil
      rw [(List.append_eq_nil_iff.1 hnil).2] at hp
      cases hp
    rw [← hpayload, ← hat hne hx hd]
    rfl

/-- **The exact result of expanding one branch**: it succeeds just when no node that is no branch is at the path of an
instance, and then the branch holds what is left beside its template, the instances and a copy of the template below
every innermost one. -/
theorem expandNode_exact (ht : t.WellFormed) (hs : t.SiblingsDiffer) (hn : n ∈ t.preorder)
    (hbranch : (t.node n).payload.kind = .branch) (hlevels : levelNames (t.node n).payload = .ok levels)
    (hdup : ∀ names ∈ levels, names.Nodup) :
    ((∃ created t', (expandNode n).on t = (.ok created, t')) ↔
      ∀ q c, Level.IsInstance levels q → t.restContents n levels q = some c → c.payload.kind = .branch) ∧
    ∀ created t', (expandNode n).on t = (.ok created, t') → t.ExactlyExpanded n levels created t' := by
  rw [mem_preorder ht.linked] at hn
  have hd := hs.mono hn
  have hlt := hn.lt_count ht.root_lt_count
  have hclear : (t.restContents n levels).ClearAt (Level.paths levels [[]]) ↔
      ∀ q c, Level.IsInstance levels q → t.restContents n levels q = some c → c.payload.kind = .branch := by
    simp only [Layer.ClearAt, Level.mem_paths_iff]
    exact forall_congr' fun q => forall_comm
  rw [← hclear]
  by_cases hc : (t.restContents n levels).ClearAt (Level.paths levels [[]])
  · obtain ⟨t₁, hon, h⟩ := expandNode_expanded ht.linked hd hlt hbranch hlevels ht.children_nodup hdup hc
    refine ⟨iff_of_true ⟨_, _, hon⟩ hc, fun created t' hon' => ?_⟩
    rw [hon] at hon'
    cases hon'
    exact h.exact ht hs hn hdup
  · obtain ⟨e, t₁, hon⟩ := expandNode_hindered ht.linked hd hlt hbranch hlevels hc
    have hno : ∀ created t', (expandNode n).on t ≠ (.ok created, t') := by
      intro created t' h
      rw [hon] at h
      cases h
    refine ⟨iff_of_false ?_ hc, fun created t' h => absurd h (hno created t')⟩
    rintro ⟨created, t', h⟩
    exact hno created t' h

/-- A branch with two instances, one of which is declared as a node of its own, and a template of one node. -/
def doors : Tree where
  nodes := #[
    { name := "Cabin", payload := .branch "cabin", children := [1] },
    { name := "Door", payload := { common := { description := "doors" }, body := .branch [⟨["Left", "Right"]⟩] },
      parent := some 0, children := [2, 3] },
    { name := "Left", payload := .branch "the left one", parent := some 1 },
    { name := "Window", payload := .branch "window", parent := some 1 }]
  root := 0

theorem doors_exact : ∃ created t', (expandNode 1).on doors = (.ok created, t') ∧
    doors.ExactlyExpanded 1 [["Left", "Right"]] created t' := by
  have hlevels : levelNames (doors.node 1).payload = .ok [["Left", "Right"]] := by cbv
  obtain ⟨hiff, hexact⟩ := expandNode_exact (t := doors) (n := 1) (wellFormed_of_isOrdered (by decide))
    (siblingsDiffer_of_isOrdered (by decide)) (by decide) (by decide) hlevels (by decide)
  have hclear : ∀ q c, Level.IsInstance [["Left", "Right"]] q → doors.restContents 1 [["Left", "Right"]] q = some c →
      c.payload.kind = .branch := by
    intro q c hq hc
    rcases q with _ | ⟨name, _ | ⟨deeper, q⟩⟩
    · exact absurd rfl hq.1
    · simp only [Level.IsInstance, List.length_singleton, List.take_succ_cons, List.take_zero,
        List.forall₂_cons, List.mem_cons, List.not_mem_nil, or_false] at hq
      rcases hq.2.1 with rfl | rfl
      · cases hc
        rfl
      · cases hc
    · exact absurd hq.length_le (by simp)
  obtain ⟨created, t', hon⟩ := hiff.2 hclear
  exact ⟨created, t', hon, hexact created t' hon⟩

end Tree
end SignalCatalog
