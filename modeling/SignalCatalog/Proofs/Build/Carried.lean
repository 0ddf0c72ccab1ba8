import SignalCatalog.Proofs.Build.Sound
import SignalCatalog.Proofs.Forest.Carried
/-!
# What built nodes carry

Whatever the mode, a node of a build carries the payload of an entry, or it is a placeholder.
-/
namespace SignalCatalog
namespace Builder

open Forest (Carries)

variable {G : Content → Prop} {b : Builder} {mode : BuildMode} {r : Registry} {fqn : String}
  {id p root : Nat} {pl : Payload} {names : List String} {orphans : List (String × NodeId)}
  {data : Mapping} {o : BuildOutcome}

theorem carries_attach (h : Carries G b.forest) : Carries G (b.attach p id).forest := Carries.attach h

theorem carries_place {n : Node} (h : Carries G b.forest) (hn : G n.content) : Carries G (b.place fqn n).1.forest :=
  Carries.add h hn

theorem carries_adopt (h : Carries G b.forest) : Carries G (b.adopt fqn id).forest := Carries.foldl_attach h

section Placeholders

variable (hG : G ⟨.placeholder, true⟩)
include hG

theorem carries_connectUp (h : Carries G b.forest) : Carries G (b.connectUp id names).forest := by
  induction names generalizing b id with
  | nil => exact h
  | cons name names ih =>
    rw [connectUp]
    split
    · exact carries_attach h
    · exact carries_attach (ih (carries_place h hG))

theorem carries_extendDown (h : Carries G b.forest) : Carries G (b.extendDown p names).1.forest := by
  induction names generalizing b p with
  | nil => exact h
  | cons name names ih => exact ih (carries_attach (carries_place h hG))

theorem carries_connectOrphans (h : Carries G b.forest) : Carries G (b.connectOrphans root orphans).1.forest := by
  induction orphans generalizing b with
  | nil => exact h
  | cons e orphans ih =>
    obtain ⟨fqn, id⟩ := e
    rw [connectOrphans]
    split
    · split
      · exact ih (carries_attach (carries_extendDown hG h))
      · exact ih h
    · exact ih h

theorem carries_add (h : Carries G b.forest) (hpl : G ⟨pl, false⟩) : Carries G (b.add mode fqn pl).forest := by
  rw [add]
  split
  · exact h.declare hpl
  · rw [addNew]
    have hplace : Carries G (b.place fqn { name := QualifiedName.last fqn, payload := pl }).1.forest :=
      carries_place h hpl
    refine carries_adopt ?_
    split
    · exact hplace
    · split
      · exact carries_attach hplace
      · exact carries_connectUp hG hplace
      · exact hplace

theorem carries_addAll {b' : Builder} (h : Carries G b.forest)
    (hread : ∀ e ∈ data, ∀ pl, Payload.read r e.2 = .ok pl → G ⟨pl, false⟩) (hadd : addAll r mode b data = .ok b') :
    Carries G b'.forest :=
  addAll_induction (P := fun b => Carries G b.forest)
    (fun _ hb e he _ pl hpl => carries_add hG hb (hread e he pl hpl)) h hadd

theorem carries_finish (h : Carries G b.forest) (hf : b.finish mode = .ok o) : Carries G o.tree.toForest := by
  rw [finish] at hf
  split at hf
  · cases hf
  · split at hf
    · dsimp only at hf
      split at hf
      · cases hf
      · cases hf
        exact carries_connectOrphans hG h
    · cases hf
      exact Carries.foldl_detach h
    · cases hf
      exact h
  · cases hf

end Placeholders

end Builder

/-- **Every node of a build carries what an entry reads as**, or is a placeholder. -/
theorem carries_of_build {G : Content → Prop} {r : Registry} {mode : BuildMode} {data : Mapping} {o : BuildOutcome}
    (h : build r mode data = .ok o) (hG : G ⟨.placeholder, true⟩)
    (hread : ∀ e ∈ data, ∀ pl, Payload.read r e.2 = .ok pl → G ⟨pl, false⟩) : Forest.Carries G o.tree.toForest := by
  obtain ⟨b, hadd, hf⟩ := exists_addAll_of_build h
  have hempty : Forest.Carries G ({} : Builder).forest := fun x hx => absurd hx (Nat.not_lt_zero x)
  exact Builder.carries_finish hG (Builder.carries_addAll hG hempty hread hadd) hf

end SignalCatalog
