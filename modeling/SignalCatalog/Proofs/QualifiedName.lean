import SignalCatalog.Proofs.Text.Pieces
import SignalCatalog.QualifiedName
/-!
# Names and their segments

Names and lists of segments are in one-to-one correspondence, as long as there is a segment and none has a dot in it.
The parent of a name is the name without its last segment, and its ancestors are the parents of parents.
-/
namespace SignalCatalog

namespace QualifiedName

variable {name p s : String} {names : List String}

/-- **Texts that may be the segments of a name.** -/
def DotFree (names : List String) : Prop := ∀ s ∈ names, '.' ∉ s.toList

theorem segments_ne_nil (name : String) : segments name ≠ [] := by
  simp [segments, Text.splitOn_ne_nil]

theorem dotFree_segments (name : String) : DotFree (segments name) := by
  intro s hs
  obtain ⟨piece, hpiece, rfl⟩ := List.mem_map.1 hs
  rw [String.toList_ofList]
  exact Text.not_mem_of_mem_splitOn hpiece

theorem last_mem_segments (name : String) : last name ∈ segments name := by
  rw [last, List.getLast?_eq_getLast_of_ne_nil (segments_ne_nil name), Option.getD_some]
  exact List.getLast_mem _

@[simp] theorem ofSegments_segments (name : String) : ofSegments (segments name) = name := by
  have hmap : (segments name).map String.toList = Text.splitOn '.' name.toList := by
    rw [segments, List.map_map]
    exact List.map_id'' (fun cs => String.toList_ofList) _
  rw [ofSegments, joinWith, hmap, Text.joinWith_eq, Text.splitOn_eq]
  exact (congrArg String.ofList (List.intercalate_splitOn '.')).trans String.ofList_toList

theorem segments_ofSegments (hdot : DotFree names) (hne : names ≠ []) : segments (ofSegments names) = names := by
  rw [segments, ofSegments, joinWith, String.toList_ofList, Text.joinWith_eq, Text.splitOn_eq]
  rw [show ".".toList = ['.'] from rfl, List.splitOn_intercalate '.' (by simpa [DotFree] using hdot)
    (by simpa using hne), List.map_map]
  exact List.map_id'' (fun s => String.ofList_toList) _

theorem segments_injective : Function.Injective segments := by
  intro a b h
  rw [← ofSegments_segments a, h, ofSegments_segments]

theorem length_segments (name : String) : (segments name).length = depth name + 1 := by
  rw [segments, List.length_map, Text.length_splitOn, depth]

theorem isQualified_iff : isQualified name = true ↔ 0 < depth name := by
  rw [isQualified, depth, List.contains_iff_mem, List.count_pos_iff]

theorem segments_of_not_isQualified (h : isQualified name = false) : segments name = [name] := by
  have hdepth := mt isQualified_iff.2 (Bool.eq_false_iff.1 h)
  have hlen := length_segments name
  rw [Nat.eq_zero_of_not_pos hdepth] at hlen
  obtain ⟨s, hs⟩ := List.length_eq_one_iff.1 hlen
  have hname := ofSegments_segments name
  rw [hs] at hname ⊢
  rw [← hname]
  simp [ofSegments, joinWith, Text.joinWith]

theorem parent?_eq_none_iff : parent? name = none ↔ isQualified name = false := by
  rw [parent?]
  cases isQualified name <;> simp

/-- **The parent of a name lacks its last segment.** -/
theorem segments_of_parent? (h : parent? name = some p) : segments name = segments p ++ [last name] := by
  rw [parent?] at h
  split at h
  · rename_i hq
    have hlen := length_segments name
    have hdepth := isQualified_iff.1 hq
    obtain rfl := Option.some.inj h
    rw [segments_ofSegments (fun s hs => dotFree_segments name s (List.dropLast_subset _ hs))
      (List.length_pos_iff.1 (by rw [List.length_dropLast, hlen]; omega)), last,
      List.getLast?_eq_getLast_of_ne_nil (segments_ne_nil name)]
    exact (List.dropLast_append_getLast (segments_ne_nil name)).symm
  · cases h

theorem parent?_of_segments (h : segments name = segments p ++ [s]) : parent? name = some p := by
  have hp := List.length_pos_iff.2 (segments_ne_nil p)
  have hlen := length_segments name
  rw [h, List.length_append, List.length_singleton] at hlen
  rw [parent?, if_pos (isQualified_iff.2 (by omega)), h, List.dropLast_concat, ofSegments_segments]

theorem depth_of_parent? (h : parent? name = some p) : depth name = depth p + 1 := by
  have := length_segments name
  rw [segments_of_parent? h, List.length_append, length_segments] at this
  simpa using this.symm

theorem parent_induction {motive : String → Prop} (h : ∀ name, (∀ p, parent? name = some p → motive p) → motive name)
    (name : String) : motive name := by
  generalize hd : depth name = d
  induction d using Nat.strongRecOn generalizing name with
  | _ d ih => exact h name fun p hp => ih (depth p) (by have := depth_of_parent? hp; omega) p rfl

theorem ancestors_of_parent? (h : parent? name = some p) : ancestors name = p :: ancestors p := by
  rw [ancestors, segments_of_parent? h, List.reverse_append, ancestors]
  cases hr : (segments p).reverse with
  | nil => exact absurd (List.reverse_eq_nil_iff.1 hr) (segments_ne_nil p)
  | cons last others =>
    change ofSegments (last :: others).reverse :: shorter (last :: others) = _
    rw [← hr, List.reverse_reverse, ofSegments_segments]

theorem ancestors_of_parent?_eq_none (h : parent? name = none) : ancestors name = [] := by
  rw [ancestors, segments_of_not_isQualified (parent?_eq_none_iff.1 h)]
  rfl

/-- **The ancestors of a name are its proper beginnings.** -/
theorem mem_ancestors_iff : p ∈ ancestors name ↔ segments p <+: segments name ∧ p ≠ name := by
  induction name using parent_induction with
  | _ name ih =>
    cases hname : parent? name with
    | none =>
      rw [ancestors_of_parent?_eq_none hname]
      refine iff_of_false (by simp) fun ⟨hpre, hne⟩ => hne (segments_injective ?_)
      rw [segments_of_not_isQualified (parent?_eq_none_iff.1 hname)] at hpre ⊢
      exact hpre.eq_of_length_le (List.length_pos_iff.2 (segments_ne_nil p))
    | some q =>
      rw [ancestors_of_parent? hname, List.mem_cons, ih q hname, segments_of_parent? hname, List.prefix_concat_iff,
        ← segments_of_parent? hname, segments_injective.eq_iff]
      constructor
      · rintro (rfl | ⟨hpre, -⟩)
        · refine ⟨.inr (List.prefix_refl _), fun heq => ?_⟩
          have := depth_of_parent? hname
          rw [heq] at this
          omega
        · refine ⟨.inr hpre, ?_⟩
          rintro rfl
          have := hpre.length_le
          rw [segments_of_parent? hname, List.length_append, List.length_singleton] at this
          omega
      · rintro ⟨heq | hpre, hne⟩
        · exact absurd heq hne
        · by_cases hpq : p = q
          · exact .inl hpq
          · exact .inr ⟨hpre, hpq⟩

def first (name : String) : String := (segments name).head (segments_ne_nil name)

theorem first_of_segments (h : segments name = s :: names) : first name = s := by
  rw [first, List.head_eq_iff_head?_eq_some, h]
  rfl

@[simp] theorem isQualified_first (name : String) : isQualified (first name) = false := by
  have hdot := dotFree_segments name (first name) (List.head_mem _)
  rw [isQualified, Bool.eq_false_iff, ne_eq, List.contains_iff_mem]
  exact hdot

theorem first_of_parent? (h : parent? name = some p) : first name = first p := by
  have := segments_of_parent? h
  rw [first, first, List.head_eq_iff_head?_eq_some, this, List.head?_append_of_ne_nil _ (segments_ne_nil p),
    List.head?_eq_some_head]

theorem first_of_parent?_eq_none (h : parent? name = none) : first name = name := by
  have := segments_of_not_isQualified (parent?_eq_none_iff.1 h)
  rw [first, List.head_eq_iff_head?_eq_some, this]
  rfl

theorem first_mem_ancestors (h : parent? name = some p) : first name ∈ ancestors name := by
  induction name using parent_induction generalizing p with
  | _ name ih =>
    rw [ancestors_of_parent? h, first_of_parent? h]
    cases hp : parent? p with
    | none =>
      rw [first_of_parent?_eq_none hp]
      exact List.mem_cons_self
    | some q => exact List.mem_cons_of_mem _ (ih p h hp)

theorem first_of_mem_ancestors (h : p ∈ ancestors name) : first p = first name := by
  induction name using parent_induction with
  | _ name ih =>
    cases hq : parent? name with
    | none =>
      rw [ancestors_of_parent?_eq_none hq] at h
      cases h
    | some q =>
      rw [ancestors_of_parent? hq] at h
      rw [first_of_parent? hq]
      rcases List.mem_cons.1 h with rfl | h
      · rfl
      · exact ih q hq h

theorem depth_of_mem_ancestors (h : p ∈ ancestors name) : depth p < depth name := by
  induction name using parent_induction with
  | _ name ih =>
    cases hq : parent? name with
    | none =>
      rw [ancestors_of_parent?_eq_none hq] at h
      cases h
    | some q =>
      have hdepth := depth_of_parent? hq
      rw [ancestors_of_parent? hq] at h
      rcases List.mem_cons.1 h with rfl | h
      · omega
      · have := ih q hq h
        omega

end QualifiedName
end SignalCatalog
