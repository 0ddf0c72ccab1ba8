import SignalCatalog.Proofs.Steps
import SignalCatalog.TypeTree
/-!
# How type files are loaded

A file that has been loaded has passed every step: it was read, its structs have dots in their names and are registered,
its build has no orphans, and its tree is joined to the one before it.
-/
namespace SignalCatalog
namespace TypeTree

variable {files : Files} {dirs paths : List String} {path : String} {r r' : Registry} {sofar : Option Tree}
  {data : Mapping} {tree t : Tree}

theorem exists_of_buildFile (h : buildFile r data = .ok t) :
    ∃ o, build r .strict data = .ok o ∧ o.orphans = [] ∧ o.tree = t := by
  rw [buildFile] at h
  split at h
  · cases h
  · rename_i o hbuild
    split at h
    · rename_i hempty
      cases h
      exact ⟨o, hbuild, List.isEmpty_iff.1 hempty, rfl⟩
    · cases h

theorem join_cases (h : join r tree sofar = .ok t) :
    sofar = none ∧ t = tree ∨ ∃ first stats, sofar = some first ∧ tree.rootName = first.rootName ∧
    first.merge r tree = (t, .ok stats) := by
  cases sofar with
  | none =>
    cases h
    exact .inl ⟨rfl, rfl⟩
  | some first =>
    rw [join] at h
    split at h
    · cases h
    · rename_i hroot
      split at h
      · rename_i merged stats hmerge
        cases h
        exact .inr ⟨first, stats, rfl, not_not.1 hroot, hmerge⟩
      · cases h

theorem exists_of_loadFile (h : loadFile files dirs r sofar path = (r', .ok t)) :
    ∃ data tree, Spec.load files dirs path none = .ok ⟨path, none, data⟩ ∧
    (∀ name ∈ structNames data, QualifiedName.isQualified name = true) ∧
      registerStructs r (structNames data) = (r', none) ∧ buildFile r' data = .ok tree ∧
      join r' tree sofar = .ok t := by
  rw [loadFile] at h
  split at h
  · cases h
  · rename_i spec hload
    have hspec : spec = ⟨path, none, spec.data⟩ := by
      obtain ⟨data, -, heq⟩ := exists_of_bind_eq_ok hload
      cases heq
      rfl
    dsimp only at h
    split at h
    · cases h
    · rename_i hqualified
      split at h
      · cases h
      · rename_i r₁ hregister
        obtain ⟨rfl, hjoin⟩ := Prod.mk.inj h
        obtain ⟨tree, htree, hjoin⟩ := exists_of_bind_eq_ok hjoin
        refine ⟨spec.data, tree, hload.trans (congrArg _ hspec), fun name hname => ?_, hregister, htree, hjoin⟩
        simp only [Bool.not_eq_true', Bool.not_eq_false, List.isEmpty_iff, List.filter_eq_nil_iff] at hqualified
        simpa using hqualified name hname

/-- **A type tree that is loaded** is the tree of its files, and has no property outside of a struct. -/
theorem loadFiles_of_load (h : load files dirs paths r = (r', .ok (some t))) :
    loadFiles files dirs r none paths = (r', .ok (some t)) ∧ t.propertyOrphans = [] := by
  rw [load] at h
  split at h
  · rename_i types hfiles
    obtain ⟨rfl, hcheck⟩ := Prod.mk.inj h
    cases types with
    | none => cases hcheck
    | some types =>
      rw [checkProperties] at hcheck
      split at hcheck
      · rename_i hnone
        cases hcheck
        exact ⟨hfiles, List.isEmpty_iff.1 hnone⟩
      · cases hcheck
  · cases h

end TypeTree
end SignalCatalog
