import Mathlib
import SignalCatalog.Proofs.Build.Permuted
import SignalCatalog.Proofs.Run.Stages
import SignalCatalog.Proofs.Yaml.Sheet
/-!
# What a finished run promises

Whatever files a run has read, its trees have passed the last expansion, the last pruning and the checks.  One node
escapes them: the check of parents has nothing to say of a node without one, so the root of the signal tree may be a
property.
-/
namespace SignalCatalog

variable {files : Files} {c : Config} {k : Catalog}

/-- **What a run promises of its trees**, the root of the signal tree aside where parents are concerned. -/
structure Catalog.Sound (c : Config) (k : Catalog) : Prop where
  expanded : c.expand = true → ∀ n ∈ k.root.preorder, (k.root.node n).payload.instances = []
  pruned : ∀ n ∈ k.root.preorder, n ≠ k.root.root → (k.root.node n).payload.common.delete = false
  housed : ∀ n ∈ k.root.preorder, n ≠ k.root.root → k.root.Housed n
  styled : c.level .nameStyle = .fail → ∀ n ∈ k.root.preorder, (k.root.node n).Styled
  plain : c.level .unknownAttribute = .fail → ∀ n ∈ k.root.preorder, (k.root.node n).Plain c.extendedAttributes
  types_fitting : ∀ t, k.types = some t → t.Fitting
  types_plain : ∀ t, k.types = some t → ∀ n ∈ t.preorder, (t.node n).Plain c.extendedAttributes

namespace Catalog

theorem violations_eq_nil {level : CheckLevel} {vs : List Violation} {error : List Violation → PolicyError}
    (h : Catalog.enforce (Tree.enforce level vs error) = .ok ()) : level = .fail → vs = [] := by
  intro hfail
  by_contra hvs
  rw [Tree.enforce, if_pos ⟨hfail, hvs⟩] at h
  cases h

theorem invalidParents_of_enforce {t : Tree} (h : Catalog.enforce t.checkParents = .ok ()) : t.invalidParents = [] := by
  by_contra hne
  rw [Tree.checkParents, if_neg hne] at h
  cases h

theorem housed_identify {t : Tree} {n : NodeId} : (identify c t).Housed n ↔ t.Housed n := by
  have hpayload (n : NodeId) : ((identify c t).node n).payload = (t.node n).payload :=
    field_identify Node.payload fun _ _ => rfl
  have hparent : (identify c t).parent? n = t.parent? n := field_identify Node.parent fun _ _ => rfl
  simp only [Tree.Housed, hpayload, hparent]

theorem propertyOrphans_identify {t : Tree} (h : t.propertyOrphans = []) : (identify c t).propertyOrphans = [] := by
  rw [Tree.propertyOrphans_eq_nil] at h ⊢
  intro n hn hkind
  rw [field_identify Node.payload fun _ _ => rfl] at hkind
  exact housed_identify.2 (h n (preorder_identify ▸ hn) hkind)

theorem checked_of_check {root : Tree} {types : Option Tree} (h : check c root types = .ok ()) :
    root.invalidParents = [] ∧ (c.level .nameStyle = .fail → root.namingViolations = []) ∧
      (c.level .unknownAttribute = .fail → root.extraViolations c.extendedAttributes = []) ∧
      ∀ t, types = some t → t.invalidParents = [] ∧ t.extraViolations c.extendedAttributes = [] := by
  obtain ⟨_, hparents, h⟩ := exists_of_bind_eq_ok h
  cases types with
  | none =>
    obtain ⟨_, hnames, hextra⟩ := exists_of_bind_eq_ok h
    exact ⟨invalidParents_of_enforce hparents, violations_eq_nil hnames, violations_eq_nil hextra,
      fun t ht => by cases ht⟩
  | some types =>
    obtain ⟨_, htypes, h⟩ := exists_of_bind_eq_ok h
    obtain ⟨_, hplain, h⟩ := exists_of_bind_eq_ok h
    obtain ⟨_, hnames, hextra⟩ := exists_of_bind_eq_ok h
    refine ⟨invalidParents_of_enforce hparents, violations_eq_nil hnames, violations_eq_nil hextra, fun t ht => ?_⟩
    cases ht
    exact ⟨invalidParents_of_enforce htypes, violations_eq_nil hplain rfl⟩

theorem loaded_of_typeTree {r registry : Registry} {t : Tree} (h : typeTree files c r = .ok (registry, some t)) :
    t.Rooted ∧ t.propertyOrphans = [] := by
  rw [typeTree] at h
  split at h
  · rename_i hload
    cases h
    exact TypeTree.propertyOrphans_of_load hload
  · cases h

theorem sound_of_compile (h : (compile files c).Gives k) : k.root.Rooted ∧ k.Sound c := by
  rw [compile] at h
  split at h
  · obtain ⟨_, hthrow, -⟩ := Running.gives_bind_iff.1 h
    cases hthrow
  obtain ⟨r, -, h⟩ := Running.gives_bind_iff.1 h
  obtain ⟨⟨registry, types⟩, htypes, h⟩ := Running.gives_bind_iff.1 h
  obtain ⟨root, hroot, h⟩ := Running.gives_bind_iff.1 h
  obtain ⟨_, hcheck, h⟩ := Running.gives_bind_iff.1 h
  cases h
  have hdone := (finished_signalTree hroot).identify
  obtain ⟨hparents, hnames, hextra, htypesChecked⟩ := checked_of_check (Running.gives_lift_iff.1 hcheck)
  have htype {t : Tree} (ht : types.map (identify c) = some t) : t.Fitting ∧
      ∀ n ∈ t.preorder, (t.node n).Plain c.extendedAttributes := by
    obtain ⟨hvalid, hplain⟩ := htypesChecked t ht
    obtain ⟨loaded, rfl, rfl⟩ := Option.map_eq_some_iff.1 ht
    obtain ⟨hrooted, horphans⟩ := loaded_of_typeTree (Running.gives_lift_iff.1 htypes)
    exact ⟨(Tree.fitting_iff (rooted_identify hrooted)).2 ⟨hvalid, propertyOrphans_identify horphans⟩,
      Tree.extraViolations_eq_nil.1 hplain⟩
  exact ⟨hdone.rooted, hdone.expanded, hdone.pruned, (Tree.invalidParents_eq_nil hdone.rooted).1 hparents,
    fun hfail => Tree.namingViolations_eq_nil.1 (hnames hfail),
    fun hfail => Tree.extraViolations_eq_nil.1 (hextra hfail),
    fun t ht => (htype ht).1, fun t ht => (htype ht).2⟩

/-- **The postcondition of a run**: it promises all of this, and the signal tree too has every node below a parent that
can hold it, unless a property is its root. -/
theorem compile_postcondition (h : (compile files c).Gives k) :
    k.Sound c ∧ (k.root.Fitting ↔ (k.root.node k.root.root).payload.kind ≠ .property) := by
  obtain ⟨hrooted, hsound⟩ := sound_of_compile h
  exact ⟨hsound, Tree.fitting_iff_of_housed hrooted hsound.housed⟩

end Catalog

/-! ## Runs on short files -/

namespace Catalog

theorem loadSpec_of_load {source : String} {spec : Spec} (h : Spec.load files c.includeDirs source none = .ok spec) :
    loadSpec files c source = .ok spec := by rw [loadSpec, h]

theorem expand_of_pending {t : Tree} (h : t.pending = []) : (expand c t).Gives t := by
  rw [expand]
  split
  · refine Running.gives_bind_iff.2 ⟨(t, .ok {}), Running.gives_attempt_iff.2 ?_, rfl⟩
    rw [Tree.expand, Tree.settle_eq, if_pos h]
  · rfl

theorem compile_gives {r registry : Registry} {root : Tree} {types : Option Tree} (hvspec : c.vspec ≠ "")
    (hregistry : loadRegistry files c = .ok r) (htypes : typeTree files c r = .ok (registry, types))
    (hroot : (signalTree files c registry).Gives root)
    (hcheck : check c (identify c root) (types.map (identify c)) = .ok ()) :
    (compile files c).Gives ⟨identify c root, types.map (identify c), registry⟩ := by
  rw [compile, if_neg hvspec]
  refine Running.gives_bind_iff.2 ⟨r, Running.gives_lift_iff.2 hregistry, ?_⟩
  refine Running.gives_bind_iff.2 ⟨(registry, types), Running.gives_lift_iff.2 htypes, ?_⟩
  refine Running.gives_bind_iff.2 ⟨root, hroot, ?_⟩
  exact Running.gives_bind_iff.2 ⟨(), Running.gives_lift_iff.2 hcheck, rfl⟩

end Catalog

/-! ### A car, a fan laid over it, and the type of its seats -/

def carText : String := "Car:\n  type: branch\n  description: car\n"

def fanText : String := "Car.IsOn:\n  type: sensor\n  description: fan\n  datatype: boolean\n"

def seatText : String :=
  "Types:\n  type: branch\n  description: types\nTypes.Seat:\n  type: struct\n  description: seat\n"

def carSheet : Sheet := [("Car", [("type", "branch"), ("description", "car")])]

def fanSheet : Sheet := [("Car.IsOn", [("type", "sensor"), ("description", "fan"), ("datatype", "boolean")])]

def seatSheet : Sheet :=
  [("Types", [("type", "branch"), ("description", "types")]),
    ("Types.Seat", [("type", "struct"), ("description", "seat")])]

theorem read_car : Yaml.read carText = .ok (.mapping carSheet.entries) := by
  have htokens : Yaml.tokens carText = .ok carSheet.tokens := by cbv
  have hnode : Yaml.Node.ofTokens carSheet.tokens = .ok (some carSheet.node) := by cbv
  exact Yaml.read_of_node htokens hnode rfl

set_option maxRecDepth 1000 in
theorem read_fan : Yaml.read fanText = .ok (.mapping fanSheet.entries) := by
  have htokens : Yaml.tokens fanText = .ok fanSheet.tokens := by cbv
  have hnode : Yaml.Node.ofTokens fanSheet.tokens = .ok (some fanSheet.node) := by cbv
  exact Yaml.read_of_node htokens hnode rfl

set_option maxRecDepth 2000 in
theorem read_seat : Yaml.read seatText = .ok (.mapping seatSheet.entries) := by
  have htokens : Yaml.tokens seatText = .ok seatSheet.tokens := by cbv
  have hnode : Yaml.Node.ofTokens seatSheet.tokens = .ok (some seatSheet.node) := by cbv
  exact Yaml.read_of_node htokens hnode rfl

def carFiles : Files where
  entries :=
    [(["car", "car.vspec"], .text carText), (["parts", "fan.vspec"], .text fanText),
      (["types", "seat.vspec"], .text seatText)]
  workdir := ["car"]

def carConfig : Config :=
  { vspec := "car.vspec", overlays := ["/parts/fan.vspec"], types := ["../types/seat.vspec"], strict := true }

def carTree : Tree := .single "Car" (.branch "car")

def fanTree : Tree where
  nodes := #[
    { name := "IsOn", payload := ⟨{ description := "fan" }, .sensor { datatype := "boolean" }⟩, parent := some 1 },
    { Node.placeholder "Car" with children := [0] }]
  root := 1

def carFanTree : Tree where
  nodes := #[{ name := "Car", payload := .branch "car", children := [1] },
    { name := "IsOn", payload := ⟨{ description := "fan" }, .sensor { datatype := "boolean" }⟩, parent := some 0 }]
  root := 0

def seatTree : Tree where
  nodes := #[{ name := "Types", payload := .branch "types", children := [1] },
    { name := "Seat", payload := ⟨{ description := "seat" }, .struct⟩, parent := some 0 }]
  root := 0

def seatRegistry : Registry := (TypeTree.registerStructs .empty ["Types.Seat"]).1

theorem typeTree_seat : Catalog.typeTree carFiles carConfig .empty = .ok (seatRegistry, some seatTree) := by
  have hload : Spec.load carFiles carConfig.includeDirs "../types/seat.vspec" none =
      .ok ⟨"../types/seat.vspec", none, seatSheet.entries⟩ :=
    Spec.load_of_read rfl rfl read_seat rfl
  have hfile : TypeTree.loadFile carFiles carConfig.includeDirs .empty none "../types/seat.vspec" =
      (seatRegistry, .ok seatTree) := by
    rw [TypeTree.loadFile, hload]
    rfl
  have hfiles : TypeTree.loadFiles carFiles carConfig.includeDirs .empty none carConfig.types =
      (seatRegistry, .ok (some seatTree)) := by
    rw [show carConfig.types = ["../types/seat.vspec"] from rfl, TypeTree.loadFiles, hfile]
    rfl
  rw [Catalog.typeTree, TypeTree.load, hfiles]
  rfl

theorem build_car : Catalog.buildTree seatRegistry .connect carSheet.entries = .ok carTree := by
  have hbuild : build seatRegistry .connect carSheet.entries = .ok ⟨carTree, []⟩ :=
    (Builder.build_of_addAll rfl).trans (Builder.finish_connected (show _ = [("Car", 0)] from rfl) rfl)
  rw [Catalog.buildTree, hbuild]

theorem overlay_fan :
    (Catalog.applyOverlay carFiles carConfig seatRegistry carTree "/parts/fan.vspec").Gives carFanTree := by
  have hspec : Spec.load carFiles carConfig.includeDirs "/parts/fan.vspec" none =
      .ok ⟨"/parts/fan.vspec", none, fanSheet.entries⟩ :=
    Spec.load_of_read rfl rfl read_fan rfl
  have hload := Catalog.loadSpec_of_load (c := carConfig) hspec
  refine Running.gives_bind_iff.2 ⟨_, Running.gives_lift_iff.2 hload, ?_⟩
  refine Running.gives_bind_iff.2 ⟨fanTree, Running.gives_lift_iff.2 rfl, ?_⟩
  exact Running.gives_bind_iff.2 ⟨fanTree, Catalog.expand_of_pending (by decide), rfl⟩

theorem signalTree_car : (Catalog.signalTree carFiles carConfig seatRegistry).Gives carFanTree := by
  have hspec : Spec.load carFiles carConfig.includeDirs "car.vspec" none = .ok ⟨"car.vspec", none, carSheet.entries⟩ :=
    Spec.load_of_read rfl rfl read_car rfl
  have hload := Catalog.loadSpec_of_load (c := carConfig) hspec
  refine Running.gives_bind_iff.2 ⟨_, Running.gives_lift_iff.2 hload, ?_⟩
  refine Running.gives_bind_iff.2 ⟨carTree, Running.gives_lift_iff.2 build_car, ?_⟩
  refine Running.gives_bind_iff.2 ⟨carTree, Catalog.expand_of_pending (by decide), ?_⟩
  rw [Catalog.applyOverlays, if_neg (by decide)]
  refine Running.gives_bind_iff.2 ⟨carFanTree, Running.gives_bind_iff.2 ⟨carFanTree, overlay_fan, rfl⟩, ?_⟩
  exact Running.gives_bind_iff.2 ⟨carFanTree, Catalog.expand_of_pending (by decide), rfl⟩

theorem compile_car_postcondition : ∃ k, (Catalog.compile carFiles carConfig).Gives k ∧ k.root.nodeCount = 2 ∧
    k.types.map Tree.nodeCount = some 2 ∧
    k.Sound carConfig ∧ k.root.Fitting := by
  have hrun := Catalog.compile_gives (by decide) rfl typeTree_seat signalTree_car rfl
  obtain ⟨hsound, hfitting⟩ := Catalog.compile_postcondition hrun
  exact ⟨_, hrun, rfl, rfl, hsound, hfitting.2 (by decide)⟩

/-! ### A property alone -/

def speedText : String := "Speed:\n  type: property\n  description: speed\n  datatype: uint8\n"

def speedSheet : Sheet := [("Speed", [("type", "property"), ("description", "speed"), ("datatype", "uint8")])]

def speedFiles : Files where
  entries := [(["speed.vspec"], .text speedText)]

def speedConfig : Config := { vspec := "speed.vspec" }

def speedTree : Tree := .single "Speed" ⟨{ description := "speed" }, .property { datatype := "uint8" }⟩

set_option maxRecDepth 1000 in
theorem read_speed : Yaml.read speedText = .ok (.mapping speedSheet.entries) := by
  have htokens : Yaml.tokens speedText = .ok speedSheet.tokens := by cbv
  have hnode : Yaml.Node.ofTokens speedSheet.tokens = .ok (some speedSheet.node) := by cbv
  exact Yaml.read_of_node htokens hnode rfl

theorem signalTree_speed : (Catalog.signalTree speedFiles speedConfig .empty).Gives speedTree := by
  have hspec : Spec.load speedFiles speedConfig.includeDirs "speed.vspec" none = .ok
      ⟨"speed.vspec", none, speedSheet.entries⟩ :=
    Spec.load_of_read rfl rfl read_speed rfl
  have hload := Catalog.loadSpec_of_load (c := speedConfig) hspec
  have hbuild : build .empty .connect speedSheet.entries = .ok ⟨speedTree, []⟩ :=
    (Builder.build_of_addAll rfl).trans (Builder.finish_connected (show _ = [("Speed", 0)] from rfl) rfl)
  refine Running.gives_bind_iff.2 ⟨_, Running.gives_lift_iff.2 hload, ?_⟩
  refine Running.gives_bind_iff.2 ⟨speedTree, Running.gives_lift_iff.2 (by rw [Catalog.buildTree, hbuild]), ?_⟩
  exact Running.gives_bind_iff.2 ⟨speedTree, Catalog.expand_of_pending (by decide), rfl⟩

/-- **A property that is the whole signal tree** is below nothing, and no check minds. -/
theorem compile_speed : ∃ k, (Catalog.compile speedFiles speedConfig).Gives k ∧ k.root.preorder = [k.root.root] ∧
    (k.root.node k.root.root).payload.kind = .property ∧ k.root.parent? k.root.root = none ∧ ¬ k.root.Fitting := by
  refine ⟨_, Catalog.compile_gives (by decide) rfl rfl signalTree_speed rfl, rfl, rfl, rfl, fun h => ?_⟩
  obtain ⟨p, hp, -⟩ := h 0 (by decide) (.inr rfl)
  cases hp

end SignalCatalog
