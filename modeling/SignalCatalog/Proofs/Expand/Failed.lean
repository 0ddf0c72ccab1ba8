import SignalCatalog.Proofs.Expand.Contents
import SignalCatalog.Proofs.Expand.Exact
import SignalCatalog.Proofs.Expand.Rows
/-!
# Expansions of one branch that fail

Levels that cannot be read are noticed before anything is done.  An instance whose place is taken is noticed after the
template was cut off and the instances before it were made, and none of this is taken back: the tree is left as it was
only where there was no template and all that was made had been there, in order.
-/
namespace SignalCatalog
namespace Tree

open Level (Row rowPaths)

variable {t t' : Tree} {n x : Nat} {levels A : List (List String)} {done : List Row} {path q : List String}
  {name : String} {c : Content} {e : ExpansionError} {proto : Payload}

/-- **The tree is as it was**: its nodes, their order and all that they hold. -/
structure Untouched (t t' : Tree) : Prop where
  same_root : t'.root = t.root
  preorder : t'.preorder = t.preorder
  node : ∀ x ∈ t.preorder, t'.node x = t.node x

/-- **The tree after the expansion of a branch was given up**, with the instances at some paths made and some rows put
in order. -/
structure Abandoned (t : Tree) (n : NodeId) (levels : List (List String)) (done : List Row)
    (made : List (List String)) (t' : Tree) :
    Prop where
  same_root : t'.root = t.root
  rooted : t'.Rooted
  siblingsDiffer : t'.SiblingsDiffer
  /-- The template is cut off, and what is beside it is made of the same nodes as before. -/
  cut : ∀ c ∈ t.template n levels, ¬ t'.Below t'.root c
  stays : ∀ q x, t.Route n q x → t.restContents n levels q ≠ none → t'.Route n q x
  contents : t'.content? n = (t.restContents n levels).fill
    (.mark (instanceContent (t.node n).payload.clearInstances) made)
  ordered : ∀ row ∈ done, t'.InOrder n row
  /-- Outside the branch no node changes, none goes and none comes. -/
  outside : (∀ x ∈ t.preorder, ¬ t.Below n x → x ∈ t'.preorder ∧ ¬ t'.Below n x ∧ t'.node x = t.node x) ∧
    ∀ x ∈ t'.preorder, ¬ t'.Below n x → x ∈ t.preorder ∧ ¬ t.Below n x
  untouched_iff : t.Untouched t' ↔ t.template n levels = [] ∧ (∀ q ∈ made, t.Declared n q) ∧
    ∀ row ∈ done, t.InOrder n row

theorem Untouched.refl (t : Tree) : t.Untouched t := ⟨rfl, rfl, fun _ _ => rfl⟩

section Given

variable (ht : t.WellFormed) (hs : t.SiblingsDiffer) (hn : t.Below t.root n)
  {ends : List (List String)} {ids : List NodeId}
  (h : (t.withoutTemplate n levels).Undergone n (t.node n).payload.clearInstances done A ends ids t')
include ht h

theorem Undergone.regrown : Forest.Regrown (t.template n levels) n t.toForest t'.toForest where
  child := fun _ hc => parent?_of_mem_template ht.linked hc
  through := ⟨_, cut_withoutTemplate ht.linked n levels, h.made.filled.toGrown⟩

omit ht in
theorem Undergone.same_root : t'.root = t.root := by
  rw [h.made.same_root]
  rfl

include hn

theorem Undergone.not_below_root {c : Nat} (hc : c ∈ t.template n levels) : ¬ t'.Below t'.root c := fun hroot => by
  rw [h.same_root] at hroot
  exact (h.regrown ht).not_below_of_cut ht.linked hn (Forest.lt_count_of_parent? (parent?_of_mem_template ht.linked hc))
    hroot c hc .refl

theorem Undergone.below_branch : t'.Below t'.root n := by
  rw [h.same_root]
  exact (h.regrown ht).below_branch ht.linked hn

include hs

theorem Undergone.contents :
    t'.content? n = (t.restContents n levels).fill (.mark (instanceContent (t.node n).payload.clearInstances) A) := by
  rw [h.made.filled.content, content?_withoutTemplate ht.linked (hs.mono hn)]

/-- **What is left as it was** had no template, and all that was made in it had been there, in order. -/
theorem Undergone.untouched_iff : t.Untouched t' ↔ t.template n levels = [] ∧ (∀ q ∈ A, t.Declared n q) ∧
    ∀ row ∈ done, t.InOrder n row := by
  have hre := h.regrown ht
  constructor
  · intro huntouched
    have hsame : ∀ {x : Nat}, t'.Below n x → x ∈ t.preorder := fun hx => by
      rw [← huntouched.preorder, mem_preorder hre.linked]
      exact (h.below_branch ht hn).trans hx
    have hback {q : List String} {x : Nat} (hx : t'.Route n q x) : t.Route n q x :=
      hre.route_back ht.linked (ht.toRooted.lt_count (hsame ⟨q, hx⟩)) hx
    refine ⟨List.eq_nil_iff_forall_not_mem.2 fun c hc => ?_, fun q hq => ?_, fun row hrow => ?_⟩
    · refine h.not_below_root ht hn hc ((mem_preorder hre.linked).1 ?_)
      rw [huntouched.preorder, mem_preorder ht.linked]
      exact hn.down (parent?_of_mem_template ht.linked hc)
    · have hcontent := congrFun (h.contents ht hs hn) q
      rw [Layer.fill_of_some (Layer.mark_of_mem hq),
        Forest.content?_eq_some hre.linked h.made.filled.distinct] at hcontent
      obtain ⟨x, hx, hcontent⟩ := hcontent
      refine ⟨x, hback hx, ?_⟩
      rw [← huntouched.node x (hsame ⟨q, hx⟩)]
      exact (congrArg Content.autogenerated hcontent).trans (Content.onto_declared rfl _)
    · obtain ⟨p, hp, hl⟩ := h.ordered row hrow
      refine ⟨p, hback hp, ?_⟩
      have hnames : ((t'.children p).map fun c => (t'.node c).name) = (t.children p).map fun c => (t.node c).name := by
        rw [Forest.children, huntouched.node p (hsame ⟨_, hp⟩)]
        refine List.map_congr_left fun c hc => ?_
        have hparent := ht.linked.mem_children.1 hc
        rw [huntouched.node c ((mem_preorder ht.linked).2 ((hn.trans ⟨_, hback hp⟩).down hparent))]
      rwa [Forest.Leads, hnames] at hl
  · rintro ⟨htemplate, hdeclared, hordered⟩
    have hnone : t.withoutTemplate n levels = t := by
      rw [withoutTemplate, htemplate]
      rfl
    rw [hnone] at h
    rw [h.idle ht.children_nodup hdeclared hordered]
    exact .refl t

theorem Undergone.abandoned : t.Abandoned n levels done A t' where
  same_root := h.same_root
  rooted := (ht.toRooted.cut (cut_withoutTemplate ht.linked n levels)).grown h.made.filled.toGrown h.same_root
  siblingsDiffer := by
    have hcut := cut_withoutTemplate ht.linked n levels
    have hd :=
      h.made.filled.toGrown.distinct (hcut.linked ht.linked) (hcut.distinct ht.linked hs) h.made.filled.distinct
    rwa [SiblingsDiffer, h.same_root]
  cut := fun _ hc => h.not_below_root ht hn hc
  stays := fun _ _ hx hq => route_rest_of_regrown (h.regrown ht) ht (hs.mono hn) hx hq
  contents := h.contents ht hs hn
  ordered := h.ordered
  outside := outside_of_regrown (h.regrown ht) h.same_root ht hn
  untouched_iff := h.untouched_iff ht hs hn

theorem Undergone.collision (hbranch : (t.node n).payload.kind = .branch) (hc : t'.Collides n path name e) :
    t.restContents n levels (path ++ [name]) ≠ none ∧ t.Collides n path name e := by
  obtain ⟨x, hx, hkind, rfl⟩ := hc
  have hre := h.regrown ht
  have hrest : t.restContents n levels (path ++ [name]) = some (t'.node x).content := by
    have hcontent := Forest.content?_of_route h.made.filled.linked h.made.filled.distinct hx
    rw [h.contents ht hs hn] at hcontent
    rcases Layer.exists_of_fill hcontent with ⟨c, hmark, hpayload⟩ | hrest
    · rw [Layer.mark] at hmark
      split at hmark
      · cases hmark
        refine absurd ?_ hkind
        change (t'.node x).payload = _ at hpayload
        rw [hpayload, Payload.kind_clearInstances, hbranch]
      · cases hmark
    · exact hrest
  have hold := hrest
  rw [restContents] at hold
  split at hold
  · obtain ⟨y, hy, hcontent⟩ := (Forest.content?_eq_some ht.linked (hs.mono hn)).1 hold
    have hy' : t'.Route n (path ++ [name]) y := route_rest_of_regrown hre ht (hs.mono hn) hy (by simp [hrest])
    obtain rfl := hre.linked.route_right_unique h.made.filled.distinct hy' hx
    have hpayload : (t.node y).payload = (t'.node y).payload := congrArg Content.payload hcontent
    obtain ⟨s, hn⟩ := hn
    have hn' : t'.Route t.root s n := hre.route ht.linked hn fun c hc hcn =>
      ht.linked.not_below_parent (parent?_of_mem_template ht.linked hc) hcn
    have hfqn : t'.fqn y = t.fqn y := by
      have htop : t'.parent? t.root = none := by
        rw [hre.parent? ht.root_lt_count, ht.root_top]
        exact ite_self none
      rw [Forest.fqn_of_route hre.linked htop (hn'.trans hx), Forest.fqn_of_route ht.linked ht.root_top (hn.trans hy),
        hre.name ht.root_lt_count]
    exact ⟨by simp [hrest], y, hy, hpayload ▸ hkind, by rw [hpayload, hfqn]⟩
  · cases hold

end Given

theorem stops_of_on (ht : t.WellFormed) (hs : t.SiblingsDiffer) (hn : t.Below t.root n)
    (hlevels : levelNames (t.node n).payload = .ok levels) (hon : (expandNode n).on t = (.error e, t')) :
    (t.withoutTemplate n levels).Stops n (t.node n).payload.clearInstances (Level.rows levels [[]]) e t' := by
  have hcut := cut_withoutTemplate ht.linked n levels
  have hexpandable : (t.withoutTemplate n levels).Expandable n :=
    ⟨hcut.linked ht.linked, hcut.distinct ht.linked (hs.mono hn), by
      rw [hcut.count]
      exact hn.lt_count ht.root_lt_count⟩
  obtain ⟨leaves, heq, -⟩ | ⟨e', heq, hstop⟩ :=
    instanceLevels_outcome hexpandable (.cons .here .nil) (Level.coherent_rows levels)
      (made_of_on_error ht.linked hlevels hon)
  · cases heq
  · cases heq
    exact hstop

/-- **An expansion of a branch that fails**: its levels cannot be read, and nothing is done; or the place of one of its
instances is taken by a node that is no branch, and what was done before is left. -/
theorem expandNode_failed (ht : t.WellFormed) (hs : t.SiblingsDiffer) (hn : n ∈ t.preorder)
    (hinst : (t.node n).payload.instances ≠ []) (hon : (expandNode n).on t = (.error e, t')) :
    levelNames (t.node n).payload = .error e ∧ t' = t ∨
    ∃ levels done path made name rest after, levelNames (t.node n).payload = .ok levels ∧
      Level.rows levels [[]] = done ++ (path, made ++ name :: rest) :: after ∧
      t.restContents n levels (path ++ [name]) ≠ none ∧ t.Collides n path name e ∧
      t.Abandoned n levels done (done.flatMap rowPaths ++ rowPaths (path, made)) t' := by
  rw [mem_preorder ht.linked] at hn
  cases hlevels : levelNames (t.node n).payload with
  | error e' =>
    rw [expandNode_on_invalid hlevels] at hon
    cases hon
    exact .inl ⟨rfl, rfl⟩
  | ok levels =>
    obtain ⟨done, path, made, name, rest, after, hrows, h, hc⟩ := stops_of_on ht hs hn hlevels hon
    obtain ⟨hrest, hc⟩ := h.collision ht hs hn (Payload.kind_of_instances hinst) hc
    exact .inr ⟨levels, done, path, made, name, rest, after, rfl, hrows, hrest, hc, h.abandoned ht hs hn⟩

def blocked : Tree where
  nodes := #[
    { name := "Cabin", payload := { common := { description := "cabin" }, body := .branch [⟨["Left", "Right"]⟩] },
      children := [1, 2] },
    { name := "Window", payload := .branch "window", parent := some 0 },
    { name := "Right", payload := { common := { description := "right" }, body := .attr { datatype := "uint8" } },
      parent := some 0 }]
  root := 0

theorem levelNames_blocked : levelNames (blocked.node 0).payload = .ok [["Left", "Right"]] := by cbv

theorem hindered_blocked : ∃ e t', (expandNode 0).on blocked = (.error e, t') := by
  have ht : blocked.WellFormed := wellFormed_of_isOrdered (by decide)
  refine expandNode_hindered ht.linked (siblingsDiffer_of_isOrdered (by decide)) (by decide) rfl
    levelNames_blocked fun hclear => ?_
  have := hclear ["Right"] (by decide) _ rfl
  cases this

theorem expandNode_blocked : ∃ e t', (expandNode 0).on blocked = (.error e, t') ∧
    ∃ levels done path made name rest after, levelNames (blocked.node 0).payload = .ok levels ∧
      Level.rows levels [[]] = done ++ (path, made ++ name :: rest) :: after ∧
      blocked.restContents 0 levels (path ++ [name]) ≠ none ∧ blocked.Collides 0 path name e ∧
      blocked.Abandoned 0 levels done (done.flatMap rowPaths ++ rowPaths (path, made)) t' := by
  obtain ⟨e, t', hon⟩ := hindered_blocked
  refine ⟨e, t', hon,
    (expandNode_failed (wellFormed_of_isOrdered (by decide)) (siblingsDiffer_of_isOrdered (by decide)) (by decide)
      (by decide) hon).resolve_left fun h => ?_⟩
  rw [levelNames_blocked] at h
  cases h.1

/-- The window, which nothing stood in the way of, is lost. -/
theorem not_untouched_blocked : blocked.WellFormed ∧ blocked.SiblingsDiffer ∧
    ∃ e t', (expandNode 0).on blocked = (.error e, t') ∧ 1 ∈ blocked.preorder ∧ 1 ∉ t'.preorder ∧
    ¬ blocked.Untouched t' := by
  have ht : blocked.WellFormed := wellFormed_of_isOrdered (by decide)
  have hs : blocked.SiblingsDiffer := siblingsDiffer_of_isOrdered (by decide)
  have hin : 1 ∈ blocked.preorder := by decide
  obtain ⟨e, t', hon⟩ := hindered_blocked
  obtain ⟨_, _, _, _, _, _, _, h, -⟩ := stops_of_on ht hs .refl levelNames_blocked hon
  have hout : 1 ∉ t'.preorder := by
    rw [mem_preorder (h.regrown ht).linked]
    exact h.not_below_root ht .refl (by decide)
  exact ⟨ht, hs, e, t', hon, hin, hout, fun huntouched => hout (huntouched.preorder ▸ hin)⟩

end Tree
end SignalCatalog
