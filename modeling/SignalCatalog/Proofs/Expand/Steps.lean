import SignalCatalog.Proofs.Steps
import SignalCatalog.Tree.Expand
/-!
# Running an expansion step by step

Steps of an expansion as functions of the tree.
-/
namespace SignalCatalog
namespace Tree

variable {α β : Type} {m : Expanding α} {k : α → Expanding β} {t t' : Tree} {a : α} {e : ExpansionError}

def Expanding.on (m : Expanding α) (t : Tree) : Except ExpansionError α × Tree := m.run.run t

theorem on_bind_ok (h : m.on t = (.ok a, t')) : (m >>= k).on t = (k a).on t' := run_bind_ok h

theorem on_bind_error (h : m.on t = (.error e, t')) : (m >>= k).on t = (.error e, t') := run_bind_error h

theorem on_bind_cases {b : Except ExpansionError β} (h : (m >>= k).on t = (b, t')) :
    (∃ e, m.on t = (.error e, t') ∧ b = .error e) ∨ ∃ a t₁, m.on t = (.ok a, t₁) ∧ (k a).on t₁ = (b, t') := by
  rcases hm : m.on t with ⟨e | a, t₁⟩
  · rw [on_bind_error hm] at h
    cases h
    exact .inl ⟨e, rfl, rfl⟩
  · rw [on_bind_ok hm] at h
    exact .inr ⟨a, t₁, rfl, h⟩

theorem on_bind_eq_ok {b : β} (h : (m >>= k).on t = (.ok b, t')) :
    ∃ a t₁, m.on t = (.ok a, t₁) ∧ (k a).on t₁ = (.ok b, t') := by
  rcases on_bind_cases h with ⟨e, -, hb⟩ | hok
  · cases hb
  · exact hok

theorem on_get_bind {k : Tree → Expanding β} : (get >>= k).on t = (k t).on t := rfl

theorem on_pure : (pure a : Expanding α).on t = (.ok a, t) := rfl

theorem on_change_bind {g : Forest → Forest} {k : Unit → Expanding β} :
    (change g >>= k).on t = (k ()).on (t.withForest (g t.toForest)) := rfl

/-- **One instance**: a new branch, the branch that is there, or a collision. -/
theorem instanceNode_on (proto : Payload) (p : NodeId) (name : String) : (instanceNode proto p name).on t =
    match t.childNamed? p name with
    | none => (.ok t.count, t.withForest (t.addChild p { name, payload := proto }).1)
    | some c =>
      if (t.node c).payload.kind = .branch then
        (.ok c, t.withForest (if (t.node c).autogenerated then t.modify c fun n => n.declare proto else t.toForest))
      else (.error (.node { fqn := t.fqn c, cause := .invariant (.instanceCollision name (t.node c).payload.kind) }),
        t) := by
  rw [instanceNode, on_get_bind]
  cases t.childNamed? p name with
  | none => rfl
  | some c =>
    dsimp only
    by_cases hk : (t.node c).payload.kind = .branch
    · rw [if_pos hk]
      cases (t.node c).autogenerated
      all_goals
        simp [hk]
        rfl
    · rw [if_neg hk]
      simp [hk]
      rfl

end Tree
end SignalCatalog
