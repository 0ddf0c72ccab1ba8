import SignalCatalog.Proofs.Value.Same
/-!
# Tags within values

A value that is read again has each of its tags read from its name, which takes a mark from the names that begin with
one.  So a value is changed just where one of its tags is.
-/
namespace SignalCatalog

/-- **A name that begins with a mark**, and is not the mark alone. -/
def Tag.Marked (t : Tag) : Prop := ∃ c rest, t.name.toList = '!' :: c :: rest

theorem Tag.reread_eq_self {t : Tag} : t.reread = t ↔ ¬ t.Marked := by
  obtain ⟨name⟩ := t
  rw [Tag.reread, Tag.ofText, Tag.mk.injEq, Tag.unmarked]
  constructor
  · rintro h ⟨c, rest, hname⟩
    dsimp only at hname
    rw [hname] at h
    have hlist : c :: rest = name.toList := String.toList_ofList.symm.trans (congrArg String.toList h)
    rw [hname] at hlist
    exact absurd (congrArg List.length hlist) (by simp)
  · intro h
    split
    · rename_i c rest hname
      exact absurd ⟨c, rest, hname⟩ h
    · rfl

namespace Value

variable {tag : Tag} {v : Value} {items : List Value} {entries : List (Value × Value)}

/-- **A tag stands somewhere within a value.** -/
inductive HasTag (tag : Tag) : Value → Prop
  | here {v : Value} : HasTag tag (.tagged tag v)
  | under {t : Tag} {v : Value} : HasTag tag v → HasTag tag (.tagged t v)
  | item {items : List Value} {v : Value} : v ∈ items → HasTag tag v → HasTag tag (.list items)
  | key {entries : List (Value × Value)} {e : Value × Value} : e ∈ entries → HasTag tag e.1 →
      HasTag tag (.mapping entries)
  | value {entries : List (Value × Value)} {e : Value × Value} : e ∈ entries → HasTag tag e.2 →
      HasTag tag (.mapping entries)

/-- **A value without a marked tag.** -/
def Unmarked (v : Value) : Prop := ∀ tag, v.HasTag tag → ¬ tag.Marked

theorem rereadItems_eq (items : List Value) : rereadItems items = items.map reread := by
  induction items with
  | nil => rfl
  | cons v items ih => rw [rereadItems, ih, List.map_cons]

theorem rereadEntries_eq (entries : List (Value × Value)) :
    rereadEntries entries = entries.map fun e => (e.1.reread, e.2.reread) := by
  induction entries with
  | nil => rfl
  | cons e entries ih => rw [rereadEntries, ih, List.map_cons]

theorem unmarked_list : (Value.list items).Unmarked ↔ ∀ v ∈ items, v.Unmarked := by
  constructor
  · exact fun h v hv tag htag => h tag (.item hv htag)
  · rintro h tag (_ | _ | ⟨hv, htag⟩)
    exact h _ hv tag htag

theorem unmarked_mapping : (Value.mapping entries).Unmarked ↔ ∀ e ∈ entries, e.1.Unmarked ∧ e.2.Unmarked := by
  constructor
  · exact fun h e he => ⟨fun tag htag => h tag (.key he htag), fun tag htag => h tag (.value he htag)⟩
  · rintro h tag (_ | _ | _ | ⟨he, htag⟩ | ⟨he, htag⟩)
    · exact (h _ he).1 tag htag
    · exact (h _ he).2 tag htag

theorem unmarked_tagged : (Value.tagged tag v).Unmarked ↔ ¬ tag.Marked ∧ v.Unmarked := by
  constructor
  · exact fun h => ⟨h tag .here, fun t ht => h t (.under ht)⟩
  · rintro ⟨htag, hv⟩ t (_ | ht)
    · exact htag
    · exact hv t ht

theorem map_eq_self_iff {α : Type} {f : α → α} {l : List α} : l.map f = l ↔ ∀ a ∈ l, f a = a := by
  have hid := List.map_inj_left (l := l) (f := f) (g := id)
  rwa [List.map_id] at hid

/-- **A value is read again as itself** just when none of its tags is marked. -/
theorem reread_eq_self {v : Value} : v.reread = v ↔ v.Unmarked := by
  induction v using Value.induction with
  | list items ih =>
    rw [reread, list.injEq, rereadItems_eq, unmarked_list, map_eq_self_iff]
    exact forall₂_congr ih
  | mapping entries ih =>
    rw [reread, mapping.injEq, rereadEntries_eq, unmarked_mapping, map_eq_self_iff]
    refine forall₂_congr fun e he => ?_
    rw [Prod.ext_iff, (ih e he).1, (ih e he).2]
  | tagged tag v ih => rw [reread, tagged.injEq, Tag.reread_eq_self, ih, unmarked_tagged]
  | _ => exact iff_of_true rfl (by rintro tag ⟨⟩)

end Value
end SignalCatalog
