import Mathlib.Data.List.DropRight
import SignalCatalog.Text.Blank
/-!
# Text in pieces

The pieces between separators joined again are the text, and a text without the blanks around it is all of it but
blanks.
-/
namespace SignalCatalog
namespace Text

variable {sep : Char} {cs core piece : List Char} {pieces : List (List Char)} {blank : Char → Bool}

/-! ## Separators -/

theorem splitOn_eq (sep : Char) (cs : List Char) : splitOn sep cs = cs.splitOn sep := by
  induction cs with
  | nil => rfl
  | cons c cs ih =>
    rw [splitOn, List.splitOn_cons_eq_if_modifyHead, ← ih]
    simp only [beq_iff_eq]
    refine if_congr Iff.rfl rfl ?_
    cases h : splitOn sep cs with
    | nil => exact absurd h (splitOn_ne_nil sep cs)
    | cons first others => rfl

theorem joinWith_eq (sep : List Char) (pieces : List (List Char)) : joinWith sep pieces = sep.intercalate pieces := by
  induction pieces with
  | nil => rfl
  | cons piece pieces ih =>
    cases pieces with
    | nil => simp [joinWith]
    | cons next pieces => simp [joinWith, ih]

theorem not_mem_of_mem_splitOn (h : piece ∈ splitOn sep cs) : sep ∉ piece := by
  induction cs generalizing piece with
  | nil =>
    rw [splitOn, List.mem_singleton] at h
    simp [h]
  | cons c cs ih =>
    rw [splitOn] at h
    split at h
    · rcases List.mem_cons.1 h with rfl | h
      · simp
      · exact ih h
    · rename_i hc
      cases hs : splitOn sep cs with
      | nil => exact absurd hs (splitOn_ne_nil sep cs)
      | cons first others =>
        rw [hs] at h
        rcases List.mem_cons.1 h with rfl | h
        · have := ih (hs ▸ List.mem_cons_self)
          simp only [List.mem_cons, not_or]
          exact ⟨Ne.symm hc, this⟩
        · exact ih (hs ▸ List.mem_cons_of_mem _ h)

theorem length_splitOn (sep : Char) (cs : List Char) : (splitOn sep cs).length = cs.count sep + 1 := by
  induction cs with
  | nil => rfl
  | cons c cs ih =>
    rw [splitOn]
    split
    · rename_i hc
      rw [hc, List.length_cons, ih, List.count_cons_self]
    · rename_i hc
      rw [List.count_cons_of_ne hc, ← ih]
      cases hs : splitOn sep cs with
      | nil => exact absurd hs (splitOn_ne_nil sep cs)
      | cons first others => rfl

theorem splitOn_eq_pair_iff {a b : List Char} : splitOn sep cs = [a, b] ↔ cs = a ++ sep :: b ∧ sep ∉ a ∧ sep ∉ b := by
  constructor
  · intro h
    have hjoin : [sep].intercalate (cs.splitOn sep) = cs := List.intercalate_splitOn sep
    rw [← splitOn_eq, h] at hjoin
    refine ⟨by simpa using hjoin.symm, ?_, ?_⟩
    · exact not_mem_of_mem_splitOn (h ▸ List.mem_cons_self)
    · exact not_mem_of_mem_splitOn (h ▸ List.mem_cons_of_mem _ List.mem_cons_self)
  · rintro ⟨rfl, ha, hb⟩
    have hsplit : ([sep].intercalate [a, b]).splitOn sep = [a, b] :=
      List.splitOn_intercalate sep (by simp [ha, hb]) (by simp)
    rw [splitOn_eq]
    simpa using hsplit

theorem bne_of_mem {c : Char} (h : sep ∉ cs) (hc : c ∈ cs) : (c != sep) = true := by
  rw [bne_iff_ne]
  rintro rfl
  exact h hc

theorem takeWhile_bne {a b : List Char} (h : sep ∉ a) : (a ++ sep :: b).takeWhile (· != sep) = a := by
  rw [List.takeWhile_append_of_pos fun c hc => bne_of_mem h hc, List.takeWhile_cons_of_neg (by simp), List.append_nil]

theorem dropWhile_bne {a b : List Char} (h : sep ∉ a) : (a ++ sep :: b).dropWhile (· != sep) = sep :: b := by
  rw [List.dropWhile_append_of_pos fun c hc => bne_of_mem h hc, List.dropWhile_cons_of_neg (by simp)]

theorem dropWhile_bne_of_not_mem (h : sep ∉ cs) : cs.dropWhile (· != sep) = [] :=
  List.dropWhile_eq_nil_iff.2 fun _ hc => bne_of_mem h hc

/-! ## Blanks around a text -/

/-- **A text without the blanks around it.** -/
structure Trimmed (blank : Char → Bool) (core cs : List Char) : Prop where
  around : ∃ before after, cs = before ++ core ++ after ∧ (∀ c ∈ before, blank c = true) ∧ ∀ c ∈ after, blank c = true
  first : ∀ c ∈ core.head?, blank c = false
  last : ∀ c ∈ core.getLast?, blank c = false

theorem dropWhile_eq_of_head {before : List Char} (hbefore : ∀ c ∈ before, blank c = true)
    (hfirst : ∀ c ∈ cs.head?, blank c = false) :
    (before ++ cs).dropWhile blank = cs := by
  rw [List.dropWhile_append_of_pos hbefore]
  cases cs with
  | nil => rfl
  | cons c cs => rw [List.dropWhile_cons_of_neg (by simp [hfirst c rfl])]

/-- **Blanks are taken off** at the start and then at the end. -/
theorem rdropWhile_dropWhile_eq_iff : (cs.dropWhile blank).rdropWhile blank = core ↔ Trimmed blank core cs := by
  constructor
  · rintro rfl
    refine ⟨⟨cs.takeWhile blank, (cs.dropWhile blank).rtakeWhile blank, ?_, ?_, ?_⟩, ?_, ?_⟩
    · rw [List.append_assoc, List.rdropWhile_append_rtakeWhile, List.takeWhile_append_dropWhile]
    · exact fun c hc => List.mem_takeWhile_imp hc
    · exact fun c hc => List.mem_rtakeWhile_imp hc
    · intro c hc
      obtain ⟨rest, hrest⟩ := List.rdropWhile_prefix blank (cs.dropWhile blank)
      have hhead := List.head?_dropWhile_not blank cs
      rw [← hrest, List.head?_append, Option.mem_def.1 hc] at hhead
      exact hhead
    · intro c hc
      obtain ⟨hne, rfl⟩ := List.mem_getLast?_eq_getLast hc
      simpa using List.rdropWhile_last_not blank _ hne
  · rintro ⟨⟨before, after, rfl, hbefore, hafter⟩, hfirst, hlast⟩
    rw [List.append_assoc]
    by_cases hcore : core = []
    · have hall : ∀ c ∈ before ++ after, blank c = true :=
        fun c hc => (List.mem_append.1 hc).elim (hbefore c) (hafter c)
      rw [hcore, List.nil_append, List.dropWhile_eq_nil_iff.2 hall, List.rdropWhile_nil]
    · rw [dropWhile_eq_of_head hbefore (by rwa [List.head?_append_of_ne_nil _ hcore]),
        List.rdropWhile, List.reverse_append,
        dropWhile_eq_of_head (by simpa using hafter) (by simpa using hlast), List.reverse_reverse]

theorem trim_eq_iff : trim cs = core ↔ Trimmed isBlank core cs := rdropWhile_dropWhile_eq_iff

end Text
end SignalCatalog
