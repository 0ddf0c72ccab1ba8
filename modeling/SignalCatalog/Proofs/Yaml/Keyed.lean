import SignalCatalog.Proofs.Steps
import SignalCatalog.Proofs.Value.Mapping
import SignalCatalog.Yaml.Read
/-!
# Documents have each key once

The reader refuses a key that the mapping it stands in has already, so a value that is read repeats no key, at any
depth.
-/
namespace SignalCatalog
namespace Yaml

variable {v : Value} {m m' : Mapping} {tag : Option NodeTag} {text : String}

theorem repeatsKey_of_plainValue (h : plainValue text = .ok v) : v.repeatsKey = false := by
  rw [plainValue] at h
  split at h <;> cases h <;> rfl

theorem repeatsKey_of_scalarValue {form : ScalarForm} (h : scalarValue tag form text = .ok v) :
    v.repeatsKey = false := by
  have huntagged : ∀ v, (if form = .plain then plainValue text else .ok (.string text)) = .ok v →
      v.repeatsKey = false := by
    intro v hv
    split at hv
    · exact repeatsKey_of_plainValue hv
    · cases hv
      rfl
  cases tag with
  | none => exact huntagged v h
  | some tag =>
    cases tag with
    | nameless => exact huntagged v h
    | named name =>
      obtain ⟨w, hw, rfl⟩ := exists_of_map_eq_ok h
      exact huntagged w hw
    | text =>
      cases h
      rfl
    | bool | int | float =>
      dsimp only [scalarValue] at h
      split at h <;> cases h
      rfl
    | null =>
      dsimp only [scalarValue] at h
      split at h
      · split at h <;> cases h
        rfl
      · cases h

theorem repeatsKey_tagCollection : (tagCollection tag v).repeatsKey = v.repeatsKey := by
  rw [tagCollection]
  split <;> rfl

theorem repeatsKeyEntries_concat {k : Value} (hm : Value.repeatsKeyEntries m = false) (hk : k.repeatsKey = false)
    (hv : v.repeatsKey = false) (hnew : m.contains k = false) : Value.repeatsKeyEntries (m ++ [(k, v)]) = false := by
  obtain ⟨hdistinct, hall⟩ := Value.repeatsKeyEntries_eq_false.1 hm
  refine Value.repeatsKeyEntries_eq_false.2 ⟨List.pairwise_append.2 ⟨hdistinct, List.pairwise_singleton _ _,
    fun e he e' he' => ?_⟩, ?_⟩
  · rw [List.mem_singleton.1 he', Mapping.same_comm (hall e he).1 hk]
    exact Mapping.contains_eq_false.1 hnew e he
  · simp only [List.mem_append, List.mem_singleton]
    rintro e (he | rfl)
    · exact hall e he
    · exact ⟨hk, hv⟩

mutual
theorem repeatsKey_of_value {depth : Nat} {v : Value} : {n : Node} → value depth n = .ok v → v.repeatsKey = false
  | .scalar _ _ _, h => repeatsKey_of_scalarValue h
  | .sequence _ items, h => by
    rw [value] at h
    split at h
    · cases h
    · obtain ⟨vs, hvs, h⟩ := exists_of_bind_eq_ok h
      cases h
      rw [repeatsKey_tagCollection]
      exact repeatsKeyItems_of_itemValues hvs
  | .mapping _ entries, h => by
    rw [value] at h
    split at h
    · cases h
    · obtain ⟨m, hm, h⟩ := exists_of_bind_eq_ok h
      cases h
      rw [repeatsKey_tagCollection]
      exact repeatsKeyEntries_of_entryValues rfl hm

theorem repeatsKeyItems_of_itemValues {depth : Nat} {vs : List Value} : {l : List Node} → itemValues depth l = .ok vs →
    Value.repeatsKeyItems vs = false
  | [], h => by
    cases h
    rfl
  | n :: l, h => by
    obtain ⟨v, hv, h⟩ := exists_of_bind_eq_ok h
    obtain ⟨vs, hvs, h⟩ := exists_of_bind_eq_ok h
    cases h
    rw [Value.repeatsKeyItems, repeatsKey_of_value hv, repeatsKeyItems_of_itemValues hvs]
    rfl

theorem repeatsKeyEntries_of_entryValues {depth : Nat} {m m' : Mapping} :
    {l : List (Node × Node)} → Value.repeatsKeyEntries m = false →
    entryValues depth m l = .ok m' → Value.repeatsKeyEntries m' = false
  | [], hm, h => by
    cases h
    exact hm
  | (k, n) :: l, hm, h => by
    obtain ⟨key, hkey, h⟩ := exists_of_bind_eq_ok h
    split at h
    · cases h
    · rename_i hnew
      obtain ⟨v, hv, h⟩ := exists_of_bind_eq_ok h
      exact repeatsKeyEntries_of_entryValues
        (repeatsKeyEntries_concat hm (repeatsKey_of_value hkey) (repeatsKey_of_value hv) (by simpa using hnew)) h
end

/-- **No value that is read repeats a key.** -/
theorem repeatsKey_of_read (h : read text = .ok v) : v.repeatsKey = false := by
  obtain ⟨n, -, h⟩ := exists_of_bind_eq_ok h
  cases n with
  | none =>
    cases h
    rfl
  | some n => exact repeatsKey_of_value h

end Yaml
end SignalCatalog
