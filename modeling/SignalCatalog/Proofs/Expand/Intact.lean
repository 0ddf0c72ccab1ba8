import SignalCatalog.Proofs.Expand.Endless
import SignalCatalog.Proofs.Expand.Regular
/-!
# Trees after an expansion

Links agree after every expansion.  Whether a node is listed once, and siblings differ, depends on the levels: where one
gives a name twice, its instance is on the list of children twice, and later copies of it become two nodes of one name.
-/
namespace SignalCatalog
namespace Tree

variable {t t' : Tree} {stats : ExpansionStats}

/-- **Every node of the tree stands in it once.** -/
structure Intact (t : Tree) : Prop where
  once : ∀ x ∈ t.preorder, t.preorder.count x = 1
  /-- Children are listed once, and by the node that they name as their parent. -/
  listed : ∀ x ∈ t.preorder, ∀ p : NodeId, (t.children p).count x = if t.parent? x = some p then 1 else 0
  named : ∀ p ∈ t.preorder, ((t.children p).map fun c => (t.node c).name).Nodup

theorem WellFormed.intact (ht : t.WellFormed) (hs : t.SiblingsDiffer) : t.Intact where
  once := fun x hx => List.count_eq_one_of_mem ht.nodup_preorder hx
  listed := by
    intro x hx p
    rw [(ht.children_nodup p).count, if_congr ht.linked.mem_children rfl rfl]
  named := by
    intro p hp
    refine List.Nodup.map_on (fun c hc d hd hcd => ?_) (ht.children_nodup p)
    exact hs ((mem_preorder ht.linked).1 hp) (ht.linked.mem_children.1 hc) (ht.linked.mem_children.1 hd) hcd

end Tree

/-- **What an expansion makes of a built tree**: links agree, and where no level gives a name twice every node stands in
the tree once, below its parent and under a name of its own. -/
theorem expand_build_intact {r : Registry} {mode : BuildMode} {data : Mapping} {o : BuildOutcome} {t' : Tree}
    {stats : ExpansionStats} (h : build r mode data = .ok o) (he : o.tree.expand = some (t', .ok stats)) :
    t'.Rooted ∧ ((∀ x ∈ o.tree.preorder, (o.tree.node x).payload.LevelsDiffer) → t'.Intact) := by
  have hrun := Tree.reaches_of_expand he
  refine ⟨hrun.rooted (wellFormed_of_build h).1.toRooted, fun hlevels => ?_⟩
  have hregular := (hrun.regularState (Tree.regular_of_build h hlevels)).regular
  exact hregular.toWellFormed.intact hregular.siblingsDiffer

namespace Tree

def doorsDone : Tree where
  nodes := #[
    { name := "Cabin", payload := .branch "cabin", children := [1] },
    { name := "Door", payload := .branch "doors", parent := some 0, children := [2, 4] },
    { name := "Left", payload := .branch "the left one", parent := some 1, children := [5] },
    { name := "Window", payload := .branch "window" },
    { name := "Right", payload := .branch "doors", parent := some 1, children := [6] },
    { name := "Window", payload := .branch "window", parent := some 2 },
    { name := "Window", payload := .branch "window", parent := some 4 }]
  root := 0

theorem levelNames_doors : levelNames (doors.node 1).payload = .ok [["Left", "Right"]] := by cbv

theorem expand_doors : doors.expand = some (doorsDone, .ok { iterations := 1, expanded := 1, created := 3 }) := by
  have hone : (expandNode 1).on doors = (.ok 3, doorsDone) := by
    rw [expandNode, on_get_bind, levelNames_doors, on_bind_ok (on_lift_ok _ _)]
    rfl
  exact expand_of_one (by decide) (by decide) hone (by decide)

theorem levelsDiffer_doors : ∀ x ∈ doors.preorder, (doors.node x).payload.LevelsDiffer :=
  eachLevel_of_one (by decide) levelNames_doors (by decide)

def twiceEntries : Mapping := [(.string "Cabin", instancesEntry "cabin" [.string "Row", .string "Row"])]

def twice : Tree where
  nodes := #[
    { name := "Cabin", payload := { common := { description := "cabin" }, body := .branch [⟨["Row", "Row"]⟩] } }]
  root := 0

def twiceDone : Tree where
  nodes := #[{ name := "Cabin", payload := .branch "cabin", children := [1, 1] },
    { name := "Row", payload := .branch "cabin", parent := some 0 }]
  root := 0

theorem expand_twice : twice.expand = some (twiceDone, .ok { iterations := 1, expanded := 1, created := 2 }) := by
  have hlevels : levelNames (twice.node 0).payload = .ok [["Row", "Row"]] := by cbv
  have hone : (expandNode 0).on twice = (.ok 2, twiceDone) := by
    rw [expandNode, on_get_bind, hlevels, on_bind_ok (on_lift_ok _ _)]
    rfl
  exact expand_of_one (by decide) (by decide) hone (by decide)

end Tree

theorem expand_doors_intact : ∃ o t' stats, build {} .strict Tree.doorEntries = .ok o ∧
    o.tree.expand = some (t', .ok stats) ∧ t'.Intact := by
  have hbuild : build {} .strict Tree.doorEntries = .ok ⟨Tree.doors, []⟩ := rfl
  exact ⟨_, _, _, hbuild, Tree.expand_doors, (expand_build_intact hbuild Tree.expand_doors).2 Tree.levelsDiffer_doors⟩

/-- **An instance that a level gives twice** is a child twice, and twice in the pre-order. -/
theorem expand_twice_shared : ∃ o t' stats, build {} .strict Tree.twiceEntries = .ok o ∧
    o.tree.expand = some (t', .ok stats) ∧
    t'.preorder = [0, 1, 1] ∧ t'.children 0 = [1, 1] ∧ ¬ t'.Intact := by
  refine ⟨⟨Tree.twice, []⟩, Tree.twiceDone, _, rfl, Tree.expand_twice, rfl, rfl, fun h => ?_⟩
  exact absurd (h.once 1 (by decide)) (by decide)

end SignalCatalog
