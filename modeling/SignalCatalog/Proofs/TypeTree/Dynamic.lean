import Mathlib
import SignalCatalog.Proofs.TypeTree.Shown
import SignalCatalog.Proofs.Yaml.Sheet
/-!
# Registered structs and the type tree

A struct is registered before the tree of its file is built, and nothing takes its name back.  So a registered name has
no struct in the tree where its entry is marked for removal, or where a later file declares the name as something else;
but for such entries the names that are registered are those of the tree's structs.
-/
namespace SignalCatalog
namespace TypeTree

variable {files : Files} {dirs paths : List String} {r r' : Registry} {v : Value} {data : Mapping}
  {sheets : List Mapping} {name : String} {t : Tree}

/-- **A name that stays a struct**: the last entry of it that a file keeps is one. -/
def StaysStruct (sheets : List Mapping) (name : String) : Prop := ∃ v, last? sheets name = some v ∧ isStruct v = true

def DeclaresStruct (sheets : List Mapping) (name : String) : Prop := ∃ data ∈ sheets, name ∈ structNames data

theorem exists_kept?_of_last? (h : last? sheets name = some v) : ∃ data ∈ sheets, kept? data name = some v := by
  induction sheets with
  | nil => cases h
  | cons data sheets ih =>
    rw [last?, Option.or_eq_some_iff] at h
    rcases h with hlater | ⟨-, hkept⟩
    · obtain ⟨later, hmem, hkept⟩ := ih hlater
      exact ⟨later, List.mem_cons_of_mem _ hmem, hkept⟩
    · exact ⟨data, List.mem_cons_self, hkept⟩

theorem declaresStruct_of_staysStruct (h : StaysStruct sheets name) : DeclaresStruct sheets name := by
  obtain ⟨v, hlast, hstruct⟩ := h
  obtain ⟨data, hdata, hkept⟩ := exists_kept?_of_last? hlast
  have hdeclared : declared? data name = some v := by
    rw [kept?] at hkept
    split at hkept
    · cases hkept
    · exact hkept
  obtain ⟨e, he, hname, rfl⟩ := mem_of_declared? hdeclared
  exact ⟨data, hdata, List.mem_filterMap.2 ⟨e, List.mem_filter.2 ⟨he, hstruct⟩, hname⟩⟩

theorem Shows.hasKind_struct_iff (h : Shows sheets t) : t.HasKind name .struct ↔ StaysStruct sheets name := by
  simp only [h.kinds, StaysStruct, isStruct_iff]

theorem Registered.mem_iff (h : Registered sheets r)
    (hscalar : ∀ name, DeclaresStruct sheets name → Datatype.isArray name = false) :
    name ∈ r.datatypes.dynamic ↔ DeclaresStruct sheets name := by
  constructor
  · exact h.sound name
  · rintro ⟨data, hdata, hname⟩
    exact h.complete data hdata name hname (hscalar name ⟨data, hdata, hname⟩)

theorem exists_sheets_of_load (hfresh : r.datatypes.dynamic = []) (h : load files dirs paths r = (r', .ok (some t))) :
    ∃ sheets, List.Forall₂ (Loads files dirs) paths sheets ∧ Registered sheets r' ∧ Shows sheets t := by
  obtain ⟨hfiles, -⟩ := loadFiles_of_load h
  exact shown_of_loadFiles (registered_nil hfresh) (show Shown [] none from rfl) hfiles

/-- **Registered names and structs of the tree.**  A name is registered once, and as some file declares a struct of it;
the tree has a struct for a name just when the name stays one.  Without names of arrays, every declared struct is
registered, those of the tree among them, and the names registered are exactly those of the tree's structs just when
every declared struct stays one. -/
theorem load_dynamic (hfresh : r.datatypes.dynamic = []) (h : load files dirs paths r = (r', .ok (some t))) :
    ∃ sheets, List.Forall₂ (Loads files dirs) paths sheets ∧ r'.datatypes.dynamic.Nodup ∧
      (∀ name ∈ r'.datatypes.dynamic, DeclaresStruct sheets name) ∧
      (∀ name, t.HasKind name .struct ↔ StaysStruct sheets name) ∧
      ((∀ name, DeclaresStruct sheets name → Datatype.isArray name = false) →
        (∀ name, name ∈ r'.datatypes.dynamic ↔ DeclaresStruct sheets name) ∧
        (∀ name, t.HasKind name .struct → name ∈ r'.datatypes.dynamic) ∧
        ((∀ name, name ∈ r'.datatypes.dynamic ↔ t.HasKind name .struct) ↔
          ∀ name, DeclaresStruct sheets name → StaysStruct sheets name)) := by
  obtain ⟨sheets, hsheets, hregistered, hshows⟩ := exists_sheets_of_load hfresh h
  have hkinds {name : String} : t.HasKind name .struct ↔ StaysStruct sheets name := hshows.hasKind_struct_iff
  refine ⟨sheets, hsheets, hregistered.nodup, hregistered.sound, fun name => hkinds, fun hscalar => ?_⟩
  have hmem {name : String} : name ∈ r'.datatypes.dynamic ↔ DeclaresStruct sheets name := hregistered.mem_iff hscalar
  refine ⟨fun name => hmem, fun name hname => hmem.2 (declaresStruct_of_staysStruct (hkinds.1 hname)), ?_⟩
  simp only [hmem, hkinds]
  exact ⟨fun hsame name => (hsame name).1, fun hstays name => ⟨hstays name, declaresStruct_of_staysStruct⟩⟩

/-! ### A point, and a branch in its place -/

def pointText : String :=
  "Types:\n  type: branch\n  description: types\nTypes.Point:\n  type: struct\n  description: point\n"

def plainText : String :=
  "Types:\n  type: branch\n  description: types\nTypes.Point:\n  type: branch\n  description: point\n"

def pointSheet : Sheet :=
  [("Types", [("type", "branch"), ("description", "types")]),
    ("Types.Point", [("type", "struct"), ("description", "point")])]

def plainSheet : Sheet :=
  [("Types", [("type", "branch"), ("description", "types")]),
    ("Types.Point", [("type", "branch"), ("description", "point")])]

def pointFiles : Files where
  entries := [(["point.vspec"], .text pointText), (["plain.vspec"], .text plainText)]

set_option maxRecDepth 2000 in
theorem read_point : Yaml.read pointText = .ok (.mapping pointSheet.entries) := by
  have htokens : Yaml.tokens pointText = .ok pointSheet.tokens := by cbv
  have hnode : Yaml.Node.ofTokens pointSheet.tokens = .ok (some pointSheet.node) := by cbv
  exact Yaml.read_of_node htokens hnode rfl

set_option maxRecDepth 2000 in
theorem read_plain : Yaml.read plainText = .ok (.mapping plainSheet.entries) := by
  have htokens : Yaml.tokens plainText = .ok plainSheet.tokens := by cbv
  have hnode : Yaml.Node.ofTokens plainSheet.tokens = .ok (some plainSheet.node) := by cbv
  exact Yaml.read_of_node htokens hnode rfl

theorem loads_point : Loads pointFiles [] "point.vspec" pointSheet.entries := Spec.load_of_read rfl rfl read_point rfl

theorem loads_plain : Loads pointFiles [] "plain.vspec" plainSheet.entries := Spec.load_of_read rfl rfl read_plain rfl

def pointRegistry : Registry := (registerStructs .empty ["Types.Point"]).1

def pointTree (body : Body) : Tree where
  nodes := #[{ name := "Types", payload := .branch "types", children := [1] },
    { name := "Point", payload := ⟨{ description := "point" }, body⟩, parent := some 0 }]
  root := 0

theorem loadFile_point :
    loadFile pointFiles [] .empty none "point.vspec" = (pointRegistry, .ok (pointTree .struct)) := by
  rw [loadFile, show Spec.load pointFiles [] "point.vspec" none = _ from loads_point]
  rfl

theorem loadFile_plain :
    loadFile pointFiles [] pointRegistry (some (pointTree .struct)) "plain.vspec" =
      (pointRegistry, .ok (pointTree (.branch []))) := by
  rw [loadFile, show Spec.load pointFiles [] "plain.vspec" none = _ from loads_plain]
  rfl

theorem load_point : load pointFiles [] ["point.vspec"] .empty = (pointRegistry, .ok (some (pointTree .struct))) := by
  rw [load, loadFiles, loadFile_point]
  rfl

theorem load_plain : load pointFiles [] ["point.vspec", "plain.vspec"] .empty =
    (pointRegistry, .ok (some (pointTree (.branch [])))) := by
  rw [load, loadFiles, loadFile_point]
  dsimp only
  rw [loadFiles, loadFile_plain]
  rfl

/-- **The point is a type** as long as it stays a struct. -/
theorem load_dynamic_point :
    load pointFiles [] ["point.vspec"] .empty = (pointRegistry, .ok (some (pointTree .struct))) ∧
    pointRegistry.datatypes.dynamic = ["Types.Point"] ∧
    ∀ name, name ∈ pointRegistry.datatypes.dynamic ↔ (pointTree .struct).HasKind name .struct := by
  obtain ⟨sheets, hsheets, -, -, -, hexact⟩ := load_dynamic rfl load_point
  obtain ⟨data, rest, hdata, hrest, rfl⟩ := List.forall₂_cons_left_iff.1 hsheets
  obtain rfl : rest = [] := List.forall₂_nil_left_iff.1 hrest
  obtain rfl : data = pointSheet.entries := congrArg Spec.data (Except.ok.inj (hdata.symm.trans loads_point))
  have honly {name : String} (h : DeclaresStruct [pointSheet.entries] name) : name = "Types.Point" := by
    obtain ⟨data, hdata, hname⟩ := h
    rw [List.mem_singleton.1 hdata] at hname
    exact List.mem_singleton.1 hname
  refine ⟨load_point, rfl, (hexact fun name hname => ?_).2.2.2 fun name hname => ?_⟩
  · rw [honly hname]
    rfl
  · rw [honly hname]
    exact ⟨_, rfl, rfl⟩

/-- **A type that is no struct of the tree**: the branch has taken the point's place, and the point is
registered still. -/
theorem load_replaced :
    load pointFiles [] ["point.vspec", "plain.vspec"] .empty = (pointRegistry, .ok (some (pointTree (.branch [])))) ∧
    ¬ ∀ name, name ∈ pointRegistry.datatypes.dynamic ↔ (pointTree (.branch [])).HasKind name .struct := by
  refine ⟨load_plain, fun hall => ?_⟩
  obtain ⟨x, hx, -, hkind⟩ := (hall "Types.Point").1 (by decide)
  have hnone : ∀ x ∈ (pointTree (.branch [])).preorder, ((pointTree (.branch [])).node x).payload.kind ≠ .struct := by
    decide
  exact hnone x hx hkind

end TypeTree
end SignalCatalog
