import SignalCatalog.Proofs.Expand.Intact
import SignalCatalog.Proofs.Forest.Named
import SignalCatalog.Proofs.Value.Mapping
/-!
# Naming the nodes of a tree

A node is found by its own qualified name just when no name on the way to it has a dot.  Built names have none; those of
instances are whatever the levels give.
-/
namespace SignalCatalog

open QualifiedName (segments DotFree)

/-- **No level gives a name with a dot.** -/
def Payload.LevelsDotFree (p : Payload) : Prop := p.EachLevel DotFree

namespace Forest

variable {f : Forest} {a x : Nat} {q : List String} {s : String}

theorem Route.exists_of_mem (h : f.Route a q x) (hs : s ∈ q) : ∃ y, f.Below a y ∧ (f.node y).name = s := by
  induction h with
  | here => cases hs
  | down h hc ih =>
    rcases List.mem_append.1 hs with hs | hs
    · exact ih hs
    · rw [List.mem_singleton.1 hs]
      exact ⟨_, ⟨_, .down h hc⟩, rfl⟩

end Forest

namespace Tree

variable {t t' u : Tree} {n x : Nat} {levels : List (List String)} {q : List String} {ids : List NodeId}

/-- **Every node can be named**: its qualified name finds it, and the flat view has one entry for it. -/
structure Addressable (t : Tree) : Prop where
  found : t.SelfFound
  exported : ∀ withExtra, t.flat withExtra = t.preorder.map fun x => (.string (t.fqn x),
    .mapping (t.flatEntry withExtra x))
  once : (t.preorder.map t.fqn).Nodup

/-- **A node is found by its own name** just when no name on the way to it has a dot. -/
theorem find?_fqn_iff (ht : t.Rooted) (hs : t.SiblingsDiffer) (hx : t.Route t.root q x) :
    t.find? (t.fqn x) = some x ↔ DotFree (t.rootName :: q) := by
  rw [Forest.fqn_of_route ht.linked ht.root_top hx]
  constructor
  · intro hfind
    rw [find?] at hfind
    have hdot := QualifiedName.dotFree_segments (QualifiedName.ofSegments (t.rootName :: q))
    cases hseg : segments (QualifiedName.ofSegments (t.rootName :: q)) with
    | nil => exact absurd hseg (QualifiedName.segments_ne_nil _)
    | cons first rest =>
      rw [show (t.node t.root).name = t.rootName from rfl, hseg] at hfind
      dsimp only at hfind
      split at hfind
      · rename_i hfirst
        rw [hseg, hfirst, ht.linked.route_unique (ht.linked.route_of_descend? hfind) hx] at hdot
        exact hdot
      · cases hfind
  · intro hdot
    exact (find?_eq_some ht.linked hs (QualifiedName.segments_ofSegments hdot (by simp))).2 hx

theorem keyed_of_names (honce : (t.preorder.map t.fqn).Nodup) (value : NodeId → Value) :
    Mapping.Keyed (t.preorder.map fun x => (.string (t.fqn x), value x)) := by
  refine ⟨?_, by simp [Value.repeatsKey]⟩
  rw [Mapping.Distinct, List.pairwise_map]
  exact (List.pairwise_map.1 honce).imp fun hne => by simpa [Value.same] using hne

theorem SelfFound.addressable (h : t.SelfFound) (ht : t.WellFormed) : t.Addressable := by
  have honce : (t.preorder.map t.fqn).Nodup :=
    List.Nodup.map_on (fun x hx y hy => h.fqn_injective hx hy) ht.nodup_preorder
  exact ⟨h, fun _ => Mapping.ofPairs_of_keyed (keyed_of_names honce _), honce⟩

/-- **The nodes of a tree can be named** just when their own names have no dots. -/
theorem addressable_iff (ht : t.WellFormed) (hs : t.SiblingsDiffer) :
    t.Addressable ↔ ∀ x ∈ t.preorder, '.' ∉ (t.node x).name.toList := by
  have hroot : t.root ∈ t.preorder := (mem_preorder ht.linked).2 .refl
  constructor
  · intro h x hx
    obtain ⟨q, hq⟩ := (mem_preorder ht.linked).1 hx
    have hdot := (find?_fqn_iff ht.toRooted hs hq).1 (h.found x hx)
    cases hq with
    | here => exact hdot _ List.mem_cons_self
    | down hp hc => exact hdot _ (by simp)
  · intro h
    refine SelfFound.addressable (fun x hx => ?_) ht
    obtain ⟨q, hq⟩ := (mem_preorder ht.linked).1 hx
    refine (find?_fqn_iff ht.toRooted hs hq).2 (List.forall_mem_cons.2 ⟨h _ hroot, fun s hsq => ?_⟩)
    obtain ⟨y, hy, rfl⟩ := hq.exists_of_mem hsq
    exact h y ((mem_preorder ht.linked).2 hy)

/-! ## Names of instances -/

/-- **No name in the tree has a dot, and no level gives one.** -/
structure Undotted (t : Tree) : Prop where
  name : ∀ x ∈ t.preorder, '.' ∉ (t.node x).name.toList
  levels : ∀ x ∈ t.preorder, (t.node x).payload.LevelsDotFree

/-- The names on a path with a source are old ones, or a level gives them. -/
theorem Source.dotFree {c : Content} (h : t.Source n levels q c) (ht : t.WellFormed) (hs : t.SiblingsDiffer)
    (hn : t.Below t.root n) (hname : ∀ x ∈ t.preorder, '.' ∉ (t.node x).name.toList)
    (hlevels : ∀ names ∈ levels, DotFree names) : DotFree q := by
  have hold : ∀ {p : List String} {d : Content}, t.content? n p = some d → DotFree p := by
    intro p d hd s hsp
    obtain ⟨y, hy, -⟩ := (Forest.content?_eq_some ht.linked (hs.mono hn)).1 hd
    obtain ⟨z, hz, rfl⟩ := hy.exists_of_mem hsp
    exact hname z ((mem_preorder ht.linked).2 (hn.trans hz))
  have hgiven : ∀ {names : List (List String)} {p : List String},
      List.Forall₂ (fun name names => name ∈ names) p names → (∀ l ∈ names, l ∈ levels) → DotFree p := by
    intro names p hp hsub
    induction hp with
    | nil => simp [DotFree]
    | cons hmem _ ih =>
      obtain ⟨hfirst, hrest⟩ := List.forall_mem_cons.1 hsub
      exact List.forall_mem_cons.2 ⟨hlevels _ hfirst _ hmem, ih hrest⟩
  have hcopy : ∀ {leaf p : List String} {d : Content}, Level.IsInnermost levels leaf →
      t.templateContents n levels p = some d → DotFree (leaf ++ p) := by
    intro leaf p d hleaf hp s hsq
    rcases List.mem_append.1 hsq with hsq | hsq
    · exact hgiven hleaf (fun _ hl => hl) s hsq
    · exact hold (content?_of_templateContents ht.linked (hs.mono hn) hp) s hsq
  cases h with
  | kept hrest => exact hold (content?_of_restContents hrest)
  | instanced hq => exact hgiven hq.2 fun _ hl => List.take_subset _ _ hl
  | copied hleaf hpq hp => exact hpq ▸ hcopy hleaf hp
  | merged hleaf hpq hp => exact hpq ▸ hcopy hleaf hp

theorem Undotted.expanded (h : t.Undotted) (hregular : t.Regular) (hn : t.Below t.root n)
    (hlevels : levelNames (t.node n).payload = .ok levels) (hexp : t.Expanded n levels t') : t'.Undotted := by
  have ht := hregular.toWellFormed
  have hs := hregular.siblingsDiffer
  have hmem := (mem_preorder ht.linked).2 hn
  refine ⟨fun x hx => ?_, hexp.eachLevel ht hs hn h.levels⟩
  · rcases hexp.node_cases ht hn hx with ⟨hold, -, hnode⟩ | ⟨rfl, -⟩ | ⟨q, hne, hq, hsource⟩
    · rw [hnode]
      exact h.name x hold
    · rw [hexp.regrown.name (hn.lt_count ht.root_lt_count)]
      exact h.name x hmem
    · have hdot := hsource.dotFree ht hs hn h.name (h.levels n hmem levels hlevels)
      cases hq with
      | here => exact absurd rfl hne
      | down hp hc => exact hdot _ (by simp)

theorem Reaches.undotted (h : t.Reaches ids u) (ht : t.Regular) (hdot : t.Undotted) : u.Undotted :=
  h.preserves (fun h hid hon ih => by
    have hstate := h.regularState ht
    obtain ⟨hbelow, -, levels, hlevels, -, hexp⟩ := hstate.exists_expanded hid hon
    exact ih.expanded hstate.regular hbelow hlevels hexp) hdot

end Tree

/-- **Which nodes can be named**: all those of a built tree.  After an expansion in which no level gives a name twice, a
node is found by its own name just when no name on the way to it has a dot, and all can be named just when none has, as
when no level gives one. -/
theorem build_expand_addressable {r : Registry} {mode : BuildMode} {data : Mapping} {o : BuildOutcome}
    (h : build r mode data = .ok o) :
    o.tree.Addressable ∧ ∀ t' stats, o.tree.expand = some (t', .ok stats) →
    (∀ x ∈ o.tree.preorder, (o.tree.node x).payload.LevelsDiffer) →
      (∀ q x, t'.Route t'.root q x → (t'.find? (t'.fqn x) = some x ↔ DotFree (t'.rootName :: q))) ∧
      (t'.Addressable ↔ ∀ x ∈ t'.preorder, '.' ∉ (t'.node x).name.toList) ∧
      ((∀ x ∈ o.tree.preorder, (o.tree.node x).payload.LevelsDotFree) → t'.Addressable) := by
  obtain ⟨ht, hs⟩ := wellFormed_of_build h
  have hnames : ∀ x ∈ o.tree.preorder, '.' ∉ (o.tree.node x).name.toList := fun x hx =>
    dotFree_of_build h (ht.lt_count hx)
  refine ⟨(Tree.addressable_iff ht hs).2 hnames, fun t' stats he hlevels => ?_⟩
  have hregular := Tree.regular_of_build h hlevels
  have hrun := Tree.reaches_of_expand he
  have h' := (hrun.regularState hregular).regular
  have hiff := Tree.addressable_iff h'.toWellFormed h'.siblingsDiffer
  refine ⟨fun q x hx => Tree.find?_fqn_iff h'.toRooted h'.siblingsDiffer hx, hiff, fun hdot => hiff.2 ?_⟩
  exact (hrun.undotted hregular ⟨hnames, hdot⟩).name

theorem expand_doors_addressable : ∃ o t' stats, build {} .strict Tree.doorEntries = .ok o ∧
    o.tree.expand = some (t', .ok stats) ∧
    o.tree.Addressable ∧ t'.Addressable := by
  have hbuild : build {} .strict Tree.doorEntries = .ok ⟨Tree.doors, []⟩ := rfl
  have hdot : ∀ x ∈ Tree.doors.preorder, (Tree.doors.node x).payload.LevelsDotFree :=
    Tree.eachLevel_of_one (by decide) Tree.levelNames_doors (by simp [DotFree])
  obtain ⟨hbuilt, hexpanded⟩ := build_expand_addressable hbuild
  exact ⟨_, _, _, hbuild, Tree.expand_doors, hbuilt, (hexpanded _ _ Tree.expand_doors Tree.levelsDiffer_doors).2.2 hdot⟩

namespace Tree

/-- A branch with an instance of a dotted name, beside the node that this name leads to. -/
def dottedEntries : Mapping :=
  [(.string "Cabin", instancesEntry "cabin" [.string "Row.Seat"]),
    (.string "Cabin.Row", .mapping [(.string "type", .string "branch"), (.string "description", .string "row"),
      (.string "instantiate", .bool false)]),
    (.string "Cabin.Row.Seat", instancesEntry "seat" [])]

def dotted : Tree where
  nodes := #[
    { name := "Cabin", payload := { common := { description := "cabin" }, body := .branch [⟨["Row.Seat"]⟩] },
      children := [1] },
    { name := "Row", payload := { common := { description := "row", instantiate := false }, body := .branch [] },
      parent := some 0, children := [2] },
    { name := "Seat", payload := .branch "seat", parent := some 1 }]
  root := 0

def dottedDone : Tree where
  nodes := #[
    { name := "Cabin", payload := .branch "cabin", children := [3, 1] },
    { name := "Row", payload := { common := { description := "row", instantiate := false }, body := .branch [] },
      parent := some 0, children := [2] },
    { name := "Seat", payload := .branch "seat", parent := some 1 },
    { name := "Row.Seat", payload := .branch "cabin", parent := some 0 }]
  root := 0

theorem expand_dotted : dotted.expand = some (dottedDone, .ok { iterations := 1, expanded := 1, created := 1 }) := by
  have hlevels : levelNames (dotted.node 0).payload = .ok [["Row.Seat"]] := by cbv
  have hone : (expandNode 0).on dotted = (.ok 1, dottedDone) := by
    rw [expandNode, on_get_bind, hlevels, on_bind_ok (on_lift_ok _ _)]
    rfl
  exact expand_of_one (by decide) (by decide) hone (by decide)

end Tree

/-- **An instance with a dotted name** cannot be found, and is lost from the flat view where its name is that of
another node. -/
theorem expand_dotted_lost : ∃ o t' stats, build {} .strict Tree.dottedEntries = .ok o ∧
    o.tree.expand = some (t', .ok stats) ∧
    t'.preorder = [0, 3, 1, 2] ∧ t'.find? (t'.fqn 3) = some 2 ∧ (t'.flat true).length = 3 ∧ ¬ t'.Addressable := by
  have hfind : Tree.dottedDone.find? (Tree.dottedDone.fqn 3) = some 2 := by decide
  refine ⟨⟨Tree.dotted, []⟩, Tree.dottedDone, _, rfl, Tree.expand_dotted, rfl, hfind, ?_, fun h => ?_⟩
  · rfl
  · rw [h.found 3 (by decide)] at hfind
    cases hfind
end SignalCatalog
