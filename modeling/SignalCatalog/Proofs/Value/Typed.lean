import SignalCatalog.Proofs.Steps
import SignalCatalog.Value.Typed
/-!
# What is read at a type

A value is read at a type just when it is of that type without its tags; a number must have none.
-/
namespace SignalCatalog
namespace Value

variable {v : Value} {items : List Value}

theorem readString_eq_ok_iff {s : String} : v.readString = .ok s ↔ v.untagged = .string s := by
  unfold readString
  split
  · rename_i t ht
    simp [ht]
  · rename_i hother
    exact iff_of_false (by simp) fun hs => hother s hs

theorem readBool_eq_ok_iff {b : Bool} : v.readBool = .ok b ↔ v.untagged = .bool b := by
  unfold readBool
  split
  · rename_i c hc
    simp [hc]
  · rename_i hother
    exact iff_of_false (by simp) fun hb => hother b hb

theorem readCount_eq_ok_iff {n : Nat} : v.readCount = .ok n ↔ v.untagged = .number (.int n) := by
  unfold readCount
  split
  · rename_i i hi
    rw [hi, number.injEq, Number.int.injEq]
    by_cases hnonneg : 0 ≤ i
    · rw [if_pos hnonneg, Except.ok.injEq]
      omega
    · rw [if_neg hnonneg]
      exact iff_of_false (by simp) (by omega)
  · rename_i hother
    exact iff_of_false (by simp) fun hn => hother n hn

theorem readNumber_eq_ok_iff {n : Number} : v.readNumber = .ok n ↔ v = .number n := by
  cases v <;> simp [readNumber]

theorem readList_eq_ok_iff : v.readList = .ok items ↔ v.untagged = .list items ∨ v.untagged = .null ∧ items = [] := by
  unfold readList
  split
  · rename_i items' hitems
    simp [hitems]
  · rename_i hnull
    simp [hnull, eq_comm]
  · rename_i hlist hnull
    refine iff_of_false (by simp) ?_
    rintro (hitems | ⟨hn, -⟩)
    · exact hlist items hitems
    · exact hnull hn

theorem mapM_readString_eq_ok_iff {l : List String} :
    items.mapM readString = .ok l ↔ items.map untagged = l.map .string := by
  rw [mapM_eq_ok_iff]
  simp only [readString_eq_ok_iff]
  rw [← List.forall₂_eq_eq_eq, List.forall₂_map_left_iff, List.forall₂_map_right_iff]

end Value
end SignalCatalog
