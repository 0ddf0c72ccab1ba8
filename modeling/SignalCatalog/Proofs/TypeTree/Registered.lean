import Mathlib.Data.List.Nodup
import SignalCatalog.Proofs.Steps
import SignalCatalog.TypeTree
/-!
# Which types are registered

The structs of each file are registered by the names of its entries.  A name that is known already is passed over, and a
name is known by its array form too.
-/
namespace SignalCatalog

namespace Datatypes

variable {d d' : Datatypes} {name : String}

theorem isSome_find?_iff : (d.find? name).isSome = true ↔ name ∈ d.names := by
  rw [find?, List.find?_isSome, names, List.mem_map]
  simp only [beq_iff_eq]

theorem lookup?_of_not_isArray (h : Datatype.isArray name = false) : d.lookup? name = d.find? name := by
  rw [lookup?, Datatype.base, if_neg (by simp [h])]

theorem names_eq : d.names = Datatype.builtIn.map (·.name) ++ d.dynamic := by
  rw [names, d.types_eq, List.map_append, List.map_map]
  exact congrArg _ (List.map_id _)

theorem mem_names_of_isQualified (h : QualifiedName.isQualified name = true) : name ∈ d.names ↔ name ∈ d.dynamic := by
  rw [names_eq, List.mem_append, or_iff_right]
  intro hmem
  obtain ⟨t, ht, rfl⟩ := List.mem_map.1 hmem
  rw [isQualified_builtIn t ht] at h
  cases h

theorem register_eq_ok (h : d.register name = .ok d') : name ∉ d.dynamic ∧ d'.dynamic = d.dynamic ++ [name] := by
  rw [register] at h
  split at h
  · rename_i hqualified
    split at h
    · cases h
    · rename_i hnew
      cases h
      rw [List.contains_iff_mem, mem_names_of_isQualified hqualified] at hnew
      exact ⟨hnew, rfl⟩
  · cases h

end Datatypes

namespace TypeTree

variable {r r' : Registry} {sheets : List Mapping} {data : Mapping} {names : List String} {name : String}

/-- **The struct types of some type files**, each registered once. -/
structure Registered (sheets : List Mapping) (r : Registry) : Prop where
  nodup : r.datatypes.dynamic.Nodup
  sound : ∀ name ∈ r.datatypes.dynamic, ∃ data ∈ sheets, name ∈ structNames data
  complete : ∀ data ∈ sheets, ∀ name ∈ structNames data, Datatype.isArray name = false → name ∈ r.datatypes.dynamic

theorem registered_nil (h : r.datatypes.dynamic = []) : Registered [] r := ⟨by simp [h], by simp [h], by simp⟩

/-- **Names are registered in turn**, those that are known left out. -/
theorem registerStructs_spec (h : registerStructs r names = (r', none))
    (hqualified : ∀ name ∈ names, QualifiedName.isQualified name = true) (hnodup : r.datatypes.dynamic.Nodup) :
    r'.datatypes.dynamic.Nodup ∧ r.datatypes.dynamic ⊆ r'.datatypes.dynamic ∧
      (∀ name ∈ r'.datatypes.dynamic, name ∈ r.datatypes.dynamic ∨ name ∈ names) ∧
      ∀ name ∈ names, Datatype.isArray name = false → name ∈ r'.datatypes.dynamic := by
  induction names generalizing r with
  | nil =>
    cases h
    exact ⟨hnodup, List.Subset.refl _, fun name hname => .inl hname, by simp⟩
  | cons first names ih =>
    obtain ⟨hfirst, hrest⟩ := List.forall_mem_cons.1 hqualified
    rw [registerStructs] at h
    split at h
    · rename_i hknown
      obtain ⟨hnodup', hsub, hsound, hcomplete⟩ := ih h hrest hnodup
      refine ⟨hnodup', hsub, fun name hname => (hsound name hname).imp_right (List.mem_cons_of_mem _),
        List.forall_mem_cons.2 ⟨fun harray => hsub ?_, hcomplete⟩⟩
      -- a name of an array is known by its elements, any other one by itself
      rwa [Datatypes.lookup?_of_not_isArray harray, Datatypes.isSome_find?_iff,
        Datatypes.mem_names_of_isQualified hfirst] at hknown
    · split at h
      · rename_i r₁ hregister
        obtain ⟨d, hd, heq⟩ := exists_of_bind_eq_ok hregister
        cases heq
        obtain ⟨hnew, hdynamic⟩ := Datatypes.register_eq_ok hd
        obtain ⟨hnodup', hsub, hsound, hcomplete⟩ := ih h hrest (by
          rw [hdynamic, ← List.concat_eq_append]
          exact hnodup.concat hnew)
        rw [hdynamic] at hsub hsound
        refine ⟨hnodup', fun name hname => hsub (List.mem_append_left _ hname), fun name hname => ?_,
          List.forall_mem_cons.2 ⟨fun _ => hsub (by simp), hcomplete⟩⟩
        rcases hsound name hname with hmem | hmem
        · rcases List.mem_append.1 hmem with hmem | hmem
          · exact .inl hmem
          · exact .inr (List.mem_singleton.1 hmem ▸ List.mem_cons_self)
        · exact .inr (List.mem_cons_of_mem _ hmem)
      · cases h

theorem Registered.concat (h : Registered sheets r)
    (hqualified : ∀ name ∈ structNames data, QualifiedName.isQualified name = true)
    (hregister : registerStructs r (structNames data) = (r', none)) : Registered (sheets ++ [data]) r' := by
  obtain ⟨hnodup, hsub, hsound, hcomplete⟩ := registerStructs_spec hregister hqualified h.nodup
  refine ⟨hnodup, fun name hname => ?_, fun sheet hsheet name hname harray => ?_⟩
  · rcases hsound name hname with hold | hnew
    · obtain ⟨sheet, hsheet, hmem⟩ := h.sound name hold
      exact ⟨sheet, List.mem_append_left _ hsheet, hmem⟩
    · exact ⟨data, by simp, hnew⟩
  · rcases List.mem_append.1 hsheet with hsheet | hsheet
    · exact hsub (h.complete sheet hsheet name hname harray)
    · rw [List.mem_singleton.1 hsheet] at hname
      exact hcomplete name hname harray

end TypeTree
end SignalCatalog
