import SignalCatalog.Proofs.Build.Outcome
import SignalCatalog.Proofs.Expand.Stopped
import SignalCatalog.Proofs.Merge.Rooted
import SignalCatalog.Proofs.Policy
import SignalCatalog.Proofs.TypeTree.Loaded
import SignalCatalog.Run.Catalog
/-!
# What the stages of a run leave

A later stage can bring back what an earlier one has removed: an overlay has instances and marked nodes of its own.
Only an expansion and a pruning that nothing follows but the identifiers settle a tree, so every stage before them is
followed for its links alone.
-/
namespace SignalCatalog

variable {α β : Type} {files : Files} {c : Config} {r r' : Registry} {t u : Tree} {n x : NodeId}

/-- **A step of a run that ends and does not fail.** -/
def Running.Gives (m : Running α) (a : α) : Prop := m.run = some (.ok a)

namespace Running

theorem gives_bind_iff {m : Running α} {k : α → Running β} {b : β} :
    (m >>= k).Gives b ↔ ∃ a, m.Gives a ∧ (k a).Gives b := by
  rw [Gives, ExceptT.run_bind]
  constructor
  · intro h
    obtain ⟨a | a, ha, hb⟩ := Option.bind_eq_some_iff.1 h
    · cases hb
    · exact ⟨a, ha, hb⟩
  · rintro ⟨a, ha, hb⟩
    exact Option.bind_eq_some_iff.2 ⟨.ok a, ha, hb⟩

theorem gives_pure_iff {a b : α} : (pure a : Running α).Gives b ↔ a = b := by
  constructor
  · intro h
    cases h
    rfl
  · rintro rfl
    rfl

theorem gives_lift_iff {m : Except RunError α} {a : α} : (liftM m : Running α).Gives a ↔ m = .ok a := by
  cases m with
  | error e => exact iff_of_false (fun h => by cases h) (fun h => by cases h)
  | ok b => exact gives_pure_iff.trans ⟨congrArg _, Except.ok.inj⟩

theorem gives_attempt_iff {m : Option α} {a : α} : (liftM m : Running α).Gives a ↔ m = some a := by
  cases m with
  | none => exact iff_of_false (fun h => by cases h) (fun h => by cases h)
  | some b => exact gives_pure_iff.trans ⟨congrArg _, Option.some.inj⟩

end Running

/-! ## Identifiers -/

namespace Tree

theorem field_addUuids (field : Node → α) (h : ∀ m u, field { m with uuid := u } = field m) :
    field (t.addUuids.node x) = field (t.node x) := by
  suffices hids : ∀ (ids : List NodeId) (f : Forest), field (f.node x) = field (t.node x) →
      field ((ids.foldl (fun f id => f.modify id fun m => { m with uuid := some (Uuid.ofName (t.fqn id)) }) f).node x) =
        field (t.node x) from hids _ _ rfl
  intro ids
  induction ids with
  | nil => exact fun f hf => hf
  | cons id ids ih => exact fun f hf => ih _ ((Forest.field_modify field fun m => h m _).trans hf)

theorem count_addUuids : t.addUuids.count = t.count := by
  suffices hids : ∀ (ids : List NodeId) (f : Forest),
      (ids.foldl (fun f id => f.modify id fun m => { m with uuid := some (Uuid.ofName (t.fqn id)) }) f).count =
        f.count from hids _ _
  intro ids
  induction ids with
  | nil => exact fun f => rfl
  | cons id ids ih => exact fun f => (ih _).trans (Forest.count_modify _)

end Tree

namespace Catalog

theorem field_identify (field : Node → α) (h : ∀ m u, field { m with uuid := u } = field m) :
    field ((identify c t).node x) = field (t.node x) := by
  rw [identify]
  split
  · exact Tree.field_addUuids field h
  · rfl

theorem root_identify : (identify c t).root = t.root := by
  rw [identify]
  split <;> rfl

theorem count_identify : (identify c t).count = t.count := by
  rw [identify]
  split
  · exact Tree.count_addUuids
  · rfl

theorem preorder_identify : (identify c t).preorder = t.preorder := by
  rw [Tree.preorder, Tree.preorder, Forest.subtree, Forest.subtree, count_identify, root_identify]
  exact Forest.subtreeWithin_congr (fun x => field_identify Node.children fun _ _ => rfl) _ _

theorem rooted_identify (ht : t.Rooted) : (identify c t).Rooted where
  linked := ht.linked.congr (fun x => field_identify Node.children fun _ _ => rfl) fun x =>
    field_identify Node.parent fun _ _ => rfl
  root_top := by
    rw [root_identify]
    exact (field_identify Node.parent fun _ _ => rfl).trans ht.root_top
  root_lt_count := by
    rw [root_identify, count_identify]
    exact ht.root_lt_count

/-! ## The signal tree -/

/-- **A tree that a run has settled**: nothing in it is left to expand, if the run expands, or to remove. -/
structure Finished (c : Config) (t : Tree) : Prop where
  rooted : t.Rooted
  expanded : c.expand = true → ∀ n ∈ t.preorder, (t.node n).payload.instances = []
  pruned : ∀ n ∈ t.preorder, n ≠ t.root → (t.node n).payload.common.delete = false

theorem Finished.identify (h : Finished c t) : Finished c (identify c t) where
  rooted := rooted_identify h.rooted
  expanded := fun hc n hn => by
    rw [field_identify Node.payload fun _ _ => rfl]
    exact h.expanded hc n (preorder_identify ▸ hn)
  pruned := fun n hn hne => by
    rw [field_identify Node.payload fun _ _ => rfl]
    exact h.pruned n (preorder_identify ▸ hn) (root_identify ▸ hne)

theorem expand_gives (ht : t.Rooted) (h : (expand c t).Gives u) : u.Rooted ∧ (c.expand = true → u.pending = []) := by
  rw [expand] at h
  split at h
  · obtain ⟨⟨v, result⟩, hv, h⟩ := Running.gives_bind_iff.1 h
    have hexpand := Running.gives_attempt_iff.1 hv
    cases result with
    | error e => cases h
    | ok stats =>
      cases h
      exact ⟨(Tree.rooted_of_expand (G := fun _ => True) ht hexpand).1, fun _ => Tree.pending_of_settle hexpand⟩
  · rename_i hc
    cases h
    exact ⟨ht, fun hc' => absurd hc' hc⟩

/-- **Pruning settles a tree that has been expanded.** -/
theorem finished_prune (ht : t.Rooted) (h : (expand c t).Gives u) : Finished c u.prune.1 := by
  obtain ⟨hu, hpending⟩ := expand_gives ht h
  have hpayload (n : NodeId) : (u.prune.1.node n).payload = (u.node n).payload :=
    congrArg Content.payload ((Tree.cut_prune hu.linked).content n)
  refine ⟨hu.prune, fun hc n hn => ?_, fun n hn hne => ?_⟩
  · rw [hpayload]
    by_contra hinst
    have hmem :=
      (Tree.mem_pending hu.linked).2 ⟨(Tree.mem_preorder hu.linked).1 ((Tree.mem_preorder_prune hu).1 hn).1, hinst⟩
    rw [hpending hc] at hmem
    cases hmem
  · obtain ⟨hn, hkept⟩ := (Tree.mem_preorder_prune hu).1 hn
    rw [hpayload]
    exact hkept n hn hne .refl

theorem rooted_of_buildTree {mode : BuildMode} {data : Mapping} (h : buildTree r mode data = .ok t) : t.Rooted := by
  rw [buildTree] at h
  split at h
  · rename_i o hbuild
    cases h
    exact (wellFormed_of_build hbuild).1.toRooted
  · cases h

theorem rooted_of_applyOverlay {path : String} (ht : t.Rooted) (h : (applyOverlay files c r t path).Gives u) :
    u.Rooted := by
  obtain ⟨spec, -, h⟩ := Running.gives_bind_iff.1 h
  obtain ⟨built, hbuilt, h⟩ := Running.gives_bind_iff.1 h
  obtain ⟨overlay, hoverlay, h⟩ := Running.gives_bind_iff.1 h
  have ho := (expand_gives (rooted_of_buildTree (Running.gives_lift_iff.1 hbuilt)) hoverlay).1
  have hmerged := Tree.rooted_of_merge (r := r) ht ho
  split at h
  · rename_i hmerge
    cases h
    rwa [hmerge] at hmerged
  · cases h

theorem rooted_of_overlays {paths : List String} (ht : t.Rooted)
    (h : (paths.foldlM (applyOverlay files c r) t).Gives u) : u.Rooted := by
  induction paths generalizing t with
  | nil =>
    cases h
    exact ht
  | cons path paths ih =>
    rw [List.foldlM_cons] at h
    obtain ⟨v, hv, h⟩ := Running.gives_bind_iff.1 h
    exact ih (rooted_of_applyOverlay ht hv) h

/-- **The signal tree is settled**, whatever its overlays bring. -/
theorem finished_signalTree (h : (signalTree files c r).Gives t) : Finished c t := by
  obtain ⟨spec, -, h⟩ := Running.gives_bind_iff.1 h
  obtain ⟨built, hbuilt, h⟩ := Running.gives_bind_iff.1 h
  obtain ⟨expanded, hexpanded, h⟩ := Running.gives_bind_iff.1 h
  have hdone := finished_prune (rooted_of_buildTree (Running.gives_lift_iff.1 hbuilt)) hexpanded
  rw [applyOverlays] at h
  split at h
  · cases h
    exact hdone
  · obtain ⟨merged, hmerged, h⟩ := Running.gives_bind_iff.1 h
    obtain ⟨again, hagain, h⟩ := Running.gives_bind_iff.1 h
    cases h
    exact finished_prune (rooted_of_overlays hdone.rooted hmerged) hagain

end Catalog

/-! ## The type tree -/

namespace TypeTree

variable {dirs paths : List String} {path : String} {sofar : Option Tree} {data : Mapping}

theorem rooted_of_buildFile (h : buildFile r data = .ok t) : t.Rooted := by
  obtain ⟨o, hbuild, -, rfl⟩ := exists_of_buildFile h
  exact (wellFormed_of_build hbuild).1.toRooted

theorem rooted_of_join (ht : t.Rooted) (hsofar : ∀ first, sofar = some first → first.Rooted)
    (h : join r t sofar = .ok u) : u.Rooted := by
  obtain ⟨-, rfl⟩ | ⟨first, stats, hfirst, -, hmerge⟩ := join_cases h
  · exact ht
  · have hmerged := Tree.rooted_of_merge (r := r) (hsofar first hfirst) ht
    rwa [hmerge] at hmerged

theorem rooted_of_loadFile (hsofar : ∀ first, sofar = some first → first.Rooted)
    (h : loadFile files dirs r sofar path = (r', .ok t)) : t.Rooted := by
  obtain ⟨data, built, -, -, -, hbuilt, hjoin⟩ := exists_of_loadFile h
  exact rooted_of_join (rooted_of_buildFile hbuilt) hsofar hjoin

theorem rooted_of_loadFiles (hsofar : ∀ first, sofar = some first → first.Rooted)
    (h : loadFiles files dirs r sofar paths = (r', .ok (some t))) : t.Rooted := by
  induction paths generalizing r sofar with
  | nil =>
    cases h
    exact hsofar t rfl
  | cons path paths ih =>
    rw [loadFiles] at h
    split at h
    · rename_i hfile
      refine ih (fun first hfirst => ?_) h
      cases hfirst
      exact rooted_of_loadFile hsofar hfile
    · cases h

/-- **A type tree that is loaded has no property outside of a struct**, the root included. -/
theorem propertyOrphans_of_load (h : load files dirs paths r = (r', .ok (some t))) :
    t.Rooted ∧ t.propertyOrphans = [] := by
  obtain ⟨hfiles, hnone⟩ := loadFiles_of_load h
  exact ⟨rooted_of_loadFiles (by simp) hfiles, hnone⟩

end TypeTree
end SignalCatalog
