import SignalCatalog.Proofs.Expand.Instances
import SignalCatalog.Proofs.Forest.Regrown
/-!
# Expanding one branch

The template is cut off, the instances are made, and the template is merged below every innermost instance: the contents
below the branch are what is left beside the template, filled first by the instances and then by the copies.
-/
namespace SignalCatalog

namespace Payload

variable {p : Payload}

@[simp] theorem kind_clearInstances (p : Payload) : p.clearInstances.kind = p.kind := by
  obtain ⟨common, body⟩ := p
  cases body <;> rfl

theorem common_clearInstances (p : Payload) : p.clearInstances.common = p.common := by
  obtain ⟨common, body⟩ := p
  cases body <;> rfl

theorem kind_of_instances (h : p.instances ≠ []) : p.kind = .branch := by
  obtain ⟨common, body⟩ := p
  cases body with
  | branch levels => rfl
  | _ => exact absurd rfl h

@[simp] theorem instances_clearInstances (p : Payload) : p.clearInstances.instances = [] := by
  obtain ⟨common, body⟩ := p
  cases body <;> rfl

end Payload

namespace Forest

variable {f g : Forest} {d n leaf k : Nat} {ts : List Nat}

theorem Spliceable.descend (h : f.Spliceable d n ts) (hp : f.Below n leaf) : f.Spliceable (f.count + 1) leaf ts where
  linked := h.linked
  nodup := h.nodup
  distinct := h.distinct.mono hp
  lt_count := hp.lt_count h.lt_count
  templates := fun t ht =>
    { lt_count := (h.templates t ht).lt_count
      apart := fun _ hx hx' => (h.templates t ht).apart hx (hp.trans hx')
      distinct := (h.templates t ht).distinct
      shallow := fun _ _ hx => Nat.lt_succ_of_le (h.linked.length_le_count hx) }
  names := h.names

/-- **Templates merged into many nodes** fill their places below each of them. -/
theorem filled_foldl_splice (h : f.Spliceable d n ts) {Ps : List (List String)} {leaves : List Nat}
    (hleaves : List.Forall₂ (fun q x => f.Route n q x) Ps leaves) (hPs : Ps.Nodup) (hlen : ∀ p ∈ Ps, p.length = k) :
    Filled n ((f.contents? ts).spread Ps) f (leaves.foldl (fun f leaf => f.splice ts leaf) f) ∧
      (leaves.foldl (fun f leaf => f.splice ts leaf) f).ChildrenNodup := by
  induction Ps generalizing f leaves with
  | nil =>
    cases hleaves
    exact ⟨.refl h.linked h.distinct, h.nodup⟩
  | cons p Ps ih =>
    cases hleaves with
    | cons hp hleaves =>
      obtain ⟨hnew, hrest⟩ := List.nodup_cons.1 hPs
      obtain ⟨hk, hlens⟩ := List.forall_mem_cons.1 hlen
      obtain ⟨hfill, hn⟩ := filled_spliceWithin (h.descend ⟨_, hp⟩)
      have hone := hfill.lift h.linked h.distinct hp
      obtain ⟨hfills, hns⟩ := ih (h.of_filled hone hn) (hleaves.imp fun _ _ hq => hone.route hq) hrest hlens
      rw [h.contents?_eq hone] at hfills
      refine ⟨hone.trans h.linked hfills (Layer.shift_or_spread_eq_none hnew fun p' hp' => ?_), hns⟩
      rw [hlens p' hp', hk]

end Forest

namespace Tree

variable {t t' : Tree} {n c : Nat} {levels : List (List String)}

/-! ## The template and what is left -/

abbrev template (t : Tree) (n : NodeId) (levels : List (List String)) : List NodeId :=
  t.templates n (levels.head?.getD [])

/-- What the template of a branch holds, by the path from the branch. -/
def templateContents (t : Tree) (n : NodeId) (levels : List (List String)) : Layer := t.contents? (t.template n levels)

/-- **What a branch holds beside its template.** -/
def restContents (t : Tree) (n : NodeId) (levels : List (List String)) : Layer := fun q =>
  if t.templateContents n levels q = none then t.content? n q else none

/-- The tree with the template cut off. -/
def withoutTemplate (t : Tree) (n : NodeId) (levels : List (List String)) : Tree :=
  t.withForest ((t.template n levels).foldl Forest.detach t.toForest)

theorem cut_withoutTemplate (ht : t.Linked) (n : NodeId) (levels : List (List String)) :
    Forest.Cut (t.template n levels) t.toForest (t.withoutTemplate n levels).toForest :=
  Forest.cut_foldl_detach ht _

theorem parent?_of_mem_template (ht : t.Linked) (hc : c ∈ t.template n levels) : t.parent? c = some n :=
  ht.mem_children.1 (List.mem_filter.1 hc).1

theorem content?_withoutTemplate (ht : t.Linked) (hd : t.DistinctBelow n) :
    (t.withoutTemplate n levels).content? n = t.restContents n levels :=
  (cut_withoutTemplate ht n levels).content?_parent ht hd fun _ hc => parent?_of_mem_template ht hc

theorem spliceable_withoutTemplate (ht : t.Linked) (hn : t.ChildrenNodup) (hd : t.DistinctBelow n) (hlt : n < t.count) :
    (t.withoutTemplate n levels).Spliceable (t.count + 1) n (t.template n levels) := by
  have hcut := cut_withoutTemplate ht n levels
  have hparent : ∀ c ∈ t.template n levels, t.parent? c = some n := fun _ hc => parent?_of_mem_template ht hc
  refine ⟨hcut.linked ht, hcut.childrenNodup hn, hcut.distinct ht hd, by rwa [hcut.count], fun c hc => ?_, ?_⟩
  · exact ⟨by rw [hcut.count]; exact Forest.lt_count_of_parent? (hparent c hc), hcut.apart hparent ht hc,
      hcut.distinct ht (hd.mono (Forest.Below.refl.down (hparent c hc))),
      fun _ _ hx => Nat.lt_succ_of_le (ht.length_le_count (hcut.route ht hx))⟩
  · refine ((hn n).sublist List.filter_sublist).imp_of_mem fun hc he hne hname => hne ?_
    rw [hcut.name, hcut.name] at hname
    exact hd .refl (hparent _ hc) (hparent _ he) hname

/-! ## The steps of an expansion -/

variable {leaves : List NodeId} {u : Tree} {e : ExpansionError}

/-- The tree after the instances are made: the template is merged below the innermost ones, and the branch declares none
any more. -/
def finishBranch (u : Tree) (n : NodeId) (template leaves : List NodeId) : Tree :=
  u.withForest ((leaves.foldl (fun f leaf => f.splice template leaf) u.toForest).modify n fun m =>
    { m with payload := m.payload.clearInstances })

theorem on_lift_ok {α : Type} (a : α) (t : Tree) :
    Expanding.on (liftM (Except.ok a : Except ExpansionError α)) t = (.ok a, t) := rfl

theorem on_lift_error {α : Type} (e : ExpansionError) (t : Tree) :
    Expanding.on (liftM (Except.error e : Except ExpansionError α)) t = (.error e, t) := rfl

theorem payload_withoutTemplate (ht : t.Linked) : ((t.withoutTemplate n levels).node n).payload = (t.node n).payload :=
  congrArg Content.payload ((cut_withoutTemplate ht n levels).content n)

theorem expandNode_on_ok (ht : t.Linked) (hlevels : levelNames (t.node n).payload = .ok levels)
    (hmade : (instanceLevels (t.node n).payload.clearInstances levels [n]).on (t.withoutTemplate n levels) =
      (.ok leaves, u)) :
    (expandNode n).on t =
      (.ok ((u.finishBranch n (t.template n levels) leaves).nodeCount -
        (t.withoutTemplate n levels).nodeCount),
      u.finishBranch n (t.template n levels) leaves) := by
  rw [← payload_withoutTemplate ht] at hmade
  rw [expandNode, on_get_bind, hlevels, on_bind_ok (on_lift_ok levels t), on_get_bind, on_change_bind,
    on_get_bind, on_get_bind]
  exact on_bind_ok hmade

theorem expandNode_on_error (ht : t.Linked) (hlevels : levelNames (t.node n).payload = .ok levels)
    (hmade : (instanceLevels (t.node n).payload.clearInstances levels [n]).on (t.withoutTemplate n levels) =
      (.error e, u)) :
    (expandNode n).on t = (.error e, u) := by
  rw [← payload_withoutTemplate ht] at hmade
  rw [expandNode, on_get_bind, hlevels, on_bind_ok (on_lift_ok levels t), on_get_bind, on_change_bind,
    on_get_bind, on_get_bind]
  exact on_bind_error hmade

theorem expandNode_on_invalid (hlevels : levelNames (t.node n).payload = .error e) :
    (expandNode n).on t = (.error e, t) := by
  rw [expandNode, on_get_bind, hlevels, on_bind_error (on_lift_error e t)]

theorem exists_levelNames {k : Nat} (hon : (expandNode n).on t = (.ok k, t')) :
    ∃ levels, levelNames (t.node n).payload = .ok levels := by
  cases hlevels : levelNames (t.node n).payload with
  | error e =>
    rw [expandNode_on_invalid hlevels] at hon
    cases hon
  | ok levels => exact ⟨levels, rfl⟩

theorem exists_made_of_on {k : Nat} (ht : t.Linked) (hlevels : levelNames (t.node n).payload = .ok levels)
    (hon : (expandNode n).on t = (.ok k, t')) : ∃ leaves u,
      (instanceLevels (t.node n).payload.clearInstances levels [n]).on (t.withoutTemplate n levels) = (.ok leaves, u) ∧
        t' = u.finishBranch n (t.template n levels) leaves := by
  rcases hmade : (instanceLevels (t.node n).payload.clearInstances levels [n]).on (t.withoutTemplate n levels) with
    ⟨e | leaves, u⟩
  · rw [expandNode_on_error ht hlevels hmade] at hon
    cases hon
  · rw [expandNode_on_ok ht hlevels hmade] at hon
    cases hon
    exact ⟨leaves, u, rfl, rfl⟩

theorem made_of_on_error (ht : t.Linked) (hlevels : levelNames (t.node n).payload = .ok levels)
    (hon : (expandNode n).on t = (.error e, t')) :
    (instanceLevels (t.node n).payload.clearInstances levels [n]).on (t.withoutTemplate n levels) = (.error e, t') := by
  rcases hmade : (instanceLevels (t.node n).payload.clearInstances levels [n]).on (t.withoutTemplate n levels) with
    ⟨e' | leaves, u⟩
  · rw [expandNode_on_error ht hlevels hmade] at hon
    cases hon
    rfl
  · rw [expandNode_on_ok ht hlevels hmade] at hon
    cases hon

/-! ## The result -/

/-- **What a branch holds when it is expanded**, itself aside. -/
def expandedContents (t : Tree) (n : NodeId) (levels : List (List String)) : Layer :=
  ((t.restContents n levels).fill
    (.mark (instanceContent (t.node n).payload.clearInstances) (Level.paths levels [[]]))).fill
    ((t.templateContents n levels).spread (Level.leaves levels [[]]))

/-- **A tree in which a branch is expanded.** -/
structure Expanded (t : Tree) (n : Nat) (levels : List (List String)) (t' : Tree) : Prop where
  same_root : t'.root = t.root
  regrown : Forest.Regrown (t.template n levels) n t.toForest t'.toForest
  /-- What is left of the branch stays where it is. -/
  grown : Forest.Grown n (t.withoutTemplate n levels).toForest t'.toForest
  nodup : t'.ChildrenNodup
  distinct : t'.DistinctBelow n
  own : (t'.node n).content = ⟨(t.node n).payload.clearInstances, (t.node n).autogenerated⟩
  below : ∀ name q, t'.content? n (name :: q) = t.expandedContents n levels (name :: q)

theorem restContents_nil : t.restContents n levels [] = some (t.node n).content := rfl

theorem expandedContents_nil : t.expandedContents n levels [] = some (t.node n).content := by
  have hmark : [] ∉ Level.paths levels [[]] := fun h => (Level.mem_paths_iff.1 h).1 rfl
  have hspread : (t.templateContents n levels).spread (Level.leaves levels [[]]) [] = none := by
    refine Option.eq_none_iff_forall_ne_some.2 fun c hc => ?_
    obtain ⟨p, -, r, hr, hc⟩ := Layer.exists_of_spread hc
    rw [(List.append_eq_nil_iff.1 hr.symm).2] at hc
    cases hc
  rw [expandedContents, Layer.fill_of_none hspread, Layer.fill_of_none (Layer.mark_of_not_mem hmark), restContents_nil]

variable (ht : t.Linked) (hd : t.DistinctBelow n) (hlt : n < t.count) (hbranch : (t.node n).payload.kind = .branch)
  (hlevels : levelNames (t.node n).payload = .ok levels)
include ht hd hlt hbranch hlevels

/-- **An expansion that nothing hinders**, and what comes of it. -/
theorem expandNode_expanded (hn : t.ChildrenNodup) (hdup : ∀ names ∈ levels, names.Nodup)
    (hclear : (t.restContents n levels).ClearAt (Level.paths levels [[]])) :
    ∃ t', (expandNode n).on t = (.ok (t'.nodeCount - (t.withoutTemplate n levels).nodeCount), t') ∧
      t.Expanded n levels t' := by
  have hcut := cut_withoutTemplate ht n levels
  have hsplice : (t.withoutTemplate n levels).Spliceable (t.count + 1) n (t.template n levels) :=
    spliceable_withoutTemplate ht hn hd hlt
  rw [← content?_withoutTemplate ht hd] at hclear
  obtain ⟨leaves, u, hon, hmade⟩ := instanceLevels_made ⟨hsplice.linked, hsplice.distinct, hsplice.lt_count⟩
    (show (t.node n).payload.clearInstances.kind = .branch by rwa [Payload.kind_clearInstances])
      (.cons .here .nil) hclear
  have hready := hsplice.of_filled hmade.filled (hmade.nodup hdup hsplice.nodup)
  obtain ⟨hfill, hnodup⟩ := Forest.filled_foldl_splice hready hmade.stand
    (Level.nodup_leaves hdup (List.nodup_singleton _)) fun p hp => (Level.mem_leaves_iff.1 hp).length_eq
  have hcontents : u.contents? (t.template n levels) = t.templateContents n levels := by
    rw [hsplice.contents?_eq hmade.filled]
    exact Forest.contents?_congr (fun c _ => hcut.name c) fun c hc =>
      hcut.content?_child (fun _ hc => parent?_of_mem_template ht hc) ht
        (hd.mono (Forest.Below.refl.down (parent?_of_mem_template ht hc))) hc
  -- before the branch's own instances go, its contents are the two layers put on what is left
  have hall : (leaves.foldl (fun f leaf => f.splice (t.template n levels) leaf) u.toForest).content? n =
      t.expandedContents n levels := by
    rw [hfill.content, hmade.filled.content, hcontents, content?_withoutTemplate ht hd]
    rfl
  have hshape : Forest.SameShape n (leaves.foldl (fun f leaf => f.splice (t.template n levels) leaf) u.toForest)
      (u.finishBranch n (t.template n levels) leaves).toForest :=
    Forest.sameShape_modify (fun _ => rfl) (fun _ => rfl) fun _ _ => Iff.rfl
  have hgrown :=
    (hmade.filled.toGrown.trans hsplice.linked hfill.toGrown).trans hsplice.linked (hshape.grown hfill.linked)
  refine ⟨_, expandNode_on_ok ht hlevels hon, ⟨by rw [finishBranch, hmade.same_root]; rfl,
    ⟨fun _ hc => parent?_of_mem_template ht hc, _, hcut, hgrown⟩, hgrown,
    Forest.childrenNodup_modify hnodup fun _ hn => hn,
    hshape.distinct hfill.distinct, ?_, fun name q => ?_⟩⟩
  · have hself := congrFun hall []
    rw [expandedContents_nil, Forest.content?_nil, Option.some_inj] at hself
    have hun := Nat.lt_of_lt_of_le hready.lt_count hfill.count_le
    rw [finishBranch]
    change (Forest.node (Forest.modify _ _ _) n).content = _
    rw [Forest.node_modify_self _ hun]
    exact congrArg (fun c : Content => Content.mk c.payload.clearInstances c.autogenerated) hself
  · rw [hshape.content?_cons hfill.linked hfill.distinct, hall]

/-- **An expansion fails** where an instance's place is taken by a node that is no branch. -/
theorem expandNode_hindered (hclear : ¬ (t.restContents n levels).ClearAt (Level.paths levels [[]])) :
    ∃ e t', (expandNode n).on t = (.error e, t') := by
  have hcut := cut_withoutTemplate ht n levels
  rw [← content?_withoutTemplate ht hd] at hclear
  obtain ⟨e, u, hon⟩ := instanceLevels_failed ⟨hcut.linked ht, hcut.distinct ht hd, by rwa [hcut.count]⟩
    (show (t.node n).payload.clearInstances.kind = .branch by rwa [Payload.kind_clearInstances])
      (.cons .here .nil) hclear
  exact ⟨e, u, expandNode_on_error ht hlevels hon⟩

theorem expanded_of_on {k : Nat} (hn : t.ChildrenNodup) (hdup : ∀ names ∈ levels, names.Nodup)
    (hon : (expandNode n).on t = (.ok k, t')) :
    t.Expanded n levels t' := by
  by_cases hclear : (t.restContents n levels).ClearAt (Level.paths levels [[]])
  · obtain ⟨u, hon', h⟩ := expandNode_expanded ht hd hlt hbranch hlevels hn hdup hclear
    rw [hon] at hon'
    cases hon'
    exact h
  · obtain ⟨e, u, hon'⟩ := expandNode_hindered ht hd hlt hbranch hlevels hclear
    rw [hon] at hon'
    cases hon'

end Tree
end SignalCatalog
