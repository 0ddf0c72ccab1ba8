import SignalCatalog.Proofs.Payload.Reread
/-!
# The view read back

The view for exporters has no flags, so a payload that is read from it is without marks.  Levels come back as they are
declared, and are declared as before; only tags within allowed values and defaults can come back as others.
-/
namespace SignalCatalog
namespace Payload

variable {r : Registry} {p q : Payload} {key : Key}

def unflagged (p : Payload) : Payload := { p with common := { p.common with delete := false, instantiate := true } }

/-- **A payload as its view is read**: without marks, the levels as they are declared. -/
def viewed (p : Payload) : Payload :=
  match p.body with
  | .branch levels => { p.unflagged with body := .branch (Level.redeclared levels) }
  | _ => p.unflagged

theorem raw_unflagged : p.unflagged.raw = p.view true := rfl

theorem Proper.unflagged (h : p.Proper) : p.unflagged.Proper := ⟨h.keyed, h.foreign, h.nonnull⟩

theorem kind_viewed : p.viewed.kind = p.kind := by
  obtain ⟨common, body⟩ := p
  cases body <;> rfl

theorem common_viewed : p.viewed.common = p.unflagged.common := by
  obtain ⟨common, body⟩ := p
  cases body <;> rfl

theorem datatypeFields?_viewed : p.viewed.datatypeFields? = p.datatypeFields? := by
  obtain ⟨common, body⟩ := p
  cases body <;> rfl

theorem instances_viewed : p.viewed.instances = Level.redeclared p.instances := by
  obtain ⟨common, body⟩ := p
  cases body <;> rfl

/-- **The view of what was read is the view that was read.** -/
theorem view_viewed (p : Payload) : p.viewed.view true = p.view true := by
  have hinstances : unlessEmpty "instances" Level.declaration p.viewed.instances =
      unlessEmpty "instances" Level.declaration p.instances := by
    rw [instances_viewed, unlessEmpty, unlessEmpty, Level.declaration_redeclared, Level.isEmpty_redeclared]
  rw [view, view, fieldEntries, fieldEntries, hinstances, kind_viewed, common_viewed, datatypeFields?_viewed]
  rfl

theorem viewed_eq : p.viewed = p.unflagged.redeclared := by
  obtain ⟨common, body⟩ := p
  cases body <;> rfl

/-! ## Reading the view -/

theorem checked_unflagged (h : p.Checked r) : p.unflagged.Checked r where
  toProper := h.toProper.unflagged
  valid := h.valid
  distinct := fun key => by
    cases key with
    | allowed => exact h.distinct .allowed
    | default => exact h.distinct .default
    | _ => trivial

theorem get?_view (hp : p.Proper) (hof : key.IsOf p.kind) :
    (p.view true).get? key.name = key.written (p.unflagged.get key) := by
  rw [← raw_unflagged, get?_raw hp.unflagged]
  exact if_pos hof

/-- **A view with steady values is read** as what it shows. -/
theorem read_view (hp : p.Checked r) (h : p.Steady) : read r (.mapping (p.view true)) = .ok p.viewed := by
  have hu := checked_unflagged hp
  have hsteady : p.unflagged.Steady := h
  rw [viewed_eq, ← reread_eq_redeclared_iff.2 hsteady, ← raw_unflagged]
  exact read_raw hu (hsteady.rereadable hu)

theorem steady_of_read_view (hp : p.Proper) (h : read r (.mapping (p.view true)) = .ok q)
    (hview : q.view true = p.view true) : p.Steady := by
  obtain ⟨hkind, hget⟩ := get_of_read_raw hp.unflagged h
  have hq : q.Proper := proper_of_read (keyed_raw hp.unflagged) h
  have hwritten (key : Key) (hof : key.IsOf p.kind) :
      key.written (q.unflagged.get key) = key.written (p.unflagged.get key) := by
    rw [← get?_view hq (hkind ▸ hof), ← get?_view hp hof, hview]
  refine steady_iff.2 ⟨?_, ?_⟩
  · by_cases hof : Key.IsOf .allowed p.kind
    · have hinj := hwritten .allowed hof
      refine (hget .allowed).symm.trans ?_
      exact congrArg Field.values (Option.map_injective (fun _ _ => Value.list.inj) hinj)
    · rw [get_of_not_isOf hof, Key.rewritten_absent]
  · by_cases hof : Key.IsOf .default p.kind
    · refine (hget .default).symm.trans ?_
      exact congrArg Field.value (hwritten .default hof)
    · rw [get_of_not_isOf hof, Key.rewritten_absent]

end Payload
end SignalCatalog
