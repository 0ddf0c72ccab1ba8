import SignalCatalog.Policy
import SignalCatalog.Proofs.Forest.Subtree
/-!
# What a tree that passes its checks is like

Every check lists the nodes that offend.  Where a list is empty, every node that can be reached from the root is as the
policy asks for.
-/
namespace SignalCatalog

/-- **CamelCase** is a capital letter with letters and digits behind it. -/
def CamelCase (name : String) : Prop :=
  ∃ c r, name.toList = c :: r ∧ ('A' ≤ c ∧ c ≤ 'Z') ∧ ∀ d ∈ r,
    ('A' ≤ d ∧ d ≤ 'Z') ∨ ('a' ≤ d ∧ d ≤ 'z') ∨ ('0' ≤ d ∧ d ≤ '9')

/-- **A name in style**: in CamelCase, and beginning with `Is` where the node is a boolean. -/
def Node.Styled (n : Node) : Prop :=
  CamelCase n.name ∧ (n.payload.datatype? = some "boolean" → ['I', 's'] <+: n.name.toList)

/-- **No further attributes but those allowed.** -/
def Node.Plain (allowed : List String) (n : Node) : Prop := ∀ name ∈ n.payload.extraNames, name ∈ allowed

namespace Tree

variable {t : Tree} {n : NodeId} {allowed : List String} {name : String}

theorem isCamelCase_iff : isCamelCase name = true ↔ CamelCase name := by
  rw [isCamelCase, CamelCase]
  cases name.toList with
  | nil => simp
  | cons c r => simp [isAsciiWordChar, isUpperLetter, or_assoc]

theorem namingFaults_eq_nil (m : Node) : namingFaults m = [] ↔ m.Styled := by
  have hprefix : beginsWithIs m.name = true ↔ ['I', 's'] <+: m.name.toList := List.isPrefixOf_iff_prefix
  rw [namingFaults, List.append_eq_nil_iff, Node.Styled, ← isCamelCase_iff, ← hprefix]
  refine and_congr ?_ ?_
  · cases isCamelCase m.name <;> simp
  · cases beginsWithIs m.name <;> simp

theorem namingViolations_eq_nil : t.namingViolations = [] ↔ ∀ n ∈ t.preorder, (t.node n).Styled := by
  simp only [namingViolations, List.flatMap_eq_nil_iff, List.map_eq_nil_iff, namingFaults_eq_nil]

theorem extraViolations_eq_nil : t.extraViolations allowed = [] ↔ ∀ n ∈ t.preorder, (t.node n).Plain allowed := by
  simp [extraViolations, Node.Plain]

/-! ## Parents -/

/-- **A node stands where its kind belongs**: a property directly below a struct, any other node directly below
a branch. -/
def Housed (t : Tree) (n : NodeId) : Prop :=
  ∃ p, t.parent? n = some p ∧ (t.node p).payload.kind = parentKind (t.node n).payload.kind

/-- **Every property stands directly below a struct, and every other node but the root directly below a branch.** -/
def Fitting (t : Tree) : Prop := ∀ n ∈ t.preorder, n ≠ t.root ∨ (t.node n).payload.kind = .property → t.Housed n

theorem exists_parent (ht : t.Linked) (hn : n ∈ t.preorder) (hne : n ≠ t.root) : ∃ p, t.parent? n = some p := by
  obtain ⟨p, -, hp⟩ := ((mem_preorder ht).1 hn).exists_parent hne
  exact ⟨p, hp⟩

theorem invalidParents_eq_nil (ht : t.Rooted) : t.invalidParents = [] ↔ ∀ n ∈ t.preorder, n ≠ t.root → t.Housed n := by
  rw [invalidParents, List.map_eq_nil_iff, List.filter_eq_nil_iff]
  refine forall₂_congr fun n hn => ⟨fun h hne => ?_, fun h hbad => ?_⟩
  · obtain ⟨p, hp⟩ := exists_parent ht.linked hn hne
    exact ⟨p, hp, by simpa [hp] using h⟩
  · have hne : n ≠ t.root := by
      rintro rfl
      simp [ht.root_top] at hbad
    obtain ⟨p, hp, hkind⟩ := h hne
    simp [hp, hkind] at hbad

theorem propertyOrphans_eq_nil : t.propertyOrphans = [] ↔
    ∀ n ∈ t.preorder, (t.node n).payload.kind = .property → t.Housed n := by
  rw [propertyOrphans, List.map_eq_nil_iff, List.filter_eq_nil_iff]
  refine forall₂_congr fun n _ => ?_
  rw [Bool.and_eq_true, not_and, beq_iff_eq]
  refine forall_congr' fun hkind => ?_
  rw [Housed, hkind]
  cases t.parent? n <;> simp [parentKind]

theorem fitting_iff (ht : t.Rooted) : t.Fitting ↔ t.invalidParents = [] ∧ t.propertyOrphans = [] := by
  rw [invalidParents_eq_nil ht, propertyOrphans_eq_nil, Fitting]
  simp only [or_imp, forall_and]

/-- **A root has no parent**, so a property at the root is the one misfit that no parent tells of. -/
theorem fitting_iff_of_housed (ht : t.Rooted) (h : ∀ n ∈ t.preorder, n ≠ t.root → t.Housed n) :
    t.Fitting ↔ (t.node t.root).payload.kind ≠ .property := by
  constructor
  · intro hfit hkind
    obtain ⟨p, hp, -⟩ := hfit t.root ((mem_preorder ht.linked).2 .refl) (.inr hkind)
    rw [ht.root_top] at hp
    cases hp
  · intro hkind n hn hor
    refine h n hn ?_
    rintro rfl
    exact hor.elim (fun hne => hne rfl) hkind

end Tree
end SignalCatalog
