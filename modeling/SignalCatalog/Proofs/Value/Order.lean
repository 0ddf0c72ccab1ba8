import SignalCatalog.Proofs.Value.Mapping
/-!
# The order of a mapping's entries

In which order removals and extensions leave the entries of a mapping: a removal moves the last entry into the place of
the one that goes, and an extension leaves every entry at its place and puts the new ones last.
-/
namespace SignalCatalog

/-- A list without repetition is itself after its end was put in front in reverse only if that end is empty, or there is
but one element at all. -/
theorem reverse_append_eq_iff {α : Type} {A B : List α} (h : (A ++ B).Nodup) :
    B.reverse ++ A = A ++ B ↔ B = [] ∨ (A ++ B).length ≤ 1 := by
  constructor
  · intro heq
    rcases List.eq_nil_or_concat B with rfl | ⟨B', b, rfl⟩
    · exact .inl rfl
    · rw [List.concat_eq_append, List.reverse_concat] at heq
      rw [List.concat_eq_append] at h ⊢
      right
      cases A with
      | cons a A =>
        -- the first element would be the last one too
        cases (List.cons.inj heq).1
        exact absurd rfl ((List.nodup_append.1 h).2.2 b List.mem_cons_self b (by simp))
      | nil =>
        cases B' with
        | nil => simp
        | cons b' B' =>
          cases (List.cons.inj heq).1
          exact absurd (List.mem_append_right B' (List.mem_singleton_self b)) (List.nodup_cons.1 h).1
  · rintro (rfl | hlen)
    · simp
    · cases A with
      | nil => match B, hlen with
        | [], _ => rfl
        | [b], _ => rfl
      | cons a A =>
        obtain ⟨rfl, rfl⟩ : A = [] ∧ B = [] := by simpa using hlen
        rfl

section Within

variable {α : Type} {pre post items items' : List α} {test : α → Bool}

theorem filter_of_sublist (h : List.Sublist items items') (hnone : ∀ a ∈ items', test a = false) :
    items.filter test = [] := List.filter_eq_nil_iff.2 fun a ha => by simp [hnone a (h.subset ha)]

theorem filter_drop_within (hpre : ∀ a ∈ pre, test a = false) (hpost : ∀ a ∈ post, test a = false)
    (items : List α) (n : Nat) :
    ((pre ++ items ++ post).drop n).filter test = (items.drop (n - pre.length)).filter test := by
  rw [List.append_assoc, List.drop_append, List.drop_append, List.filter_append, List.filter_append,
    filter_of_sublist (List.drop_sublist _ _) hpre, filter_of_sublist (List.drop_sublist _ _) hpost,
    List.nil_append, List.append_nil]

theorem filter_take_within (hpre : ∀ a ∈ pre, test a = false) (hpost : ∀ a ∈ post, test a = false)
    (items : List α) (n : Nat) :
    ((pre ++ items ++ post).take n).filter test = (items.take (n - pre.length)).filter test := by
  rw [List.append_assoc, List.take_append, List.take_append, List.filter_append, List.filter_append,
    filter_of_sublist (List.take_sublist _ _) hpre, filter_of_sublist (List.take_sublist _ _) hpost,
    List.nil_append, List.append_nil]

end Within

namespace Mapping

variable {m pre block tail pairs : Mapping} {e last : Value × Value} {key : Value} {name : String} {names : List String}

/-! ## Removals -/

theorem remove_append (h : ∀ e ∈ pre, e.1 ≠ .string name) (m : Mapping) :
    Mapping.remove (pre ++ m) name = pre ++ m.remove name := by
  have hnone : pre.findIdx? (fun e => (Value.string name).same e.1) = none :=
    List.findIdx?_eq_none_iff.2 fun e he => by
      rw [← Bool.not_eq_true, Value.same_string_iff]
      exact h e he
  rw [remove, remove, List.findIdx?_append, hnone, Option.none_or]
  cases hi : m.findIdx? (fun e => (Value.string name).same e.1) with
  | none => rfl
  | some i =>
    have hne : m ≠ [] := by
      rintro rfl
      cases hi
    dsimp only [Option.map_some]
    rw [List.getLast?_append_of_ne_nil _ hne, List.getLast?_eq_some_getLast hne]
    dsimp only
    rw [List.set_append_right _ _ (Nat.le_add_left _ _), Nat.add_sub_cancel,
      List.dropLast_append_of_ne_nil (by rw [ne_eq, List.set_eq_nil_iff]; exact hne)]

theorem remove_of_not_mem (h : ∀ e ∈ m, e.1 ≠ .string name) : m.remove name = m := by
  have hnil : Mapping.remove [] name = [] := rfl
  rw [← List.append_nil m, remove_append h, hnil]

theorem remove_cons_concat (h : e.1 = .string name) (m : Mapping) :
    Mapping.remove (e :: (m ++ [last])) name = last :: m := by
  have hlast : (e :: (m ++ [last])).getLast? = some last := by rw [← List.cons_append, List.getLast?_concat]
  simp only [remove, List.findIdx?_cons, h, Value.same_refl, if_true, hlast]
  rw [List.set_cons_zero, ← List.cons_append, List.dropLast_concat]

theorem foldl_remove_perm (h : m.Keyed) (names : List String) : List.Perm (names.foldl Mapping.remove m)
    (m.filter fun e => !names.any fun name => (Value.string name).same e.1) := by
  induction names generalizing m with
  | nil => simp
  | cons name names ih =>
    have hstep := (remove_perm h name).filter fun e => !names.any fun name => (Value.string name).same e.1
    refine (ih (h.remove name)).trans (hstep.trans (List.Perm.of_eq ?_))
    rw [List.filter_filter]
    refine List.filter_congr fun e _ => ?_
    rw [List.any_cons, Bool.not_or, Bool.and_comm]

theorem foldl_remove_append (h : ∀ e ∈ pre, ∀ name ∈ names, e.1 ≠ .string name) (m : Mapping) :
    names.foldl Mapping.remove (pre ++ m) = pre ++ names.foldl Mapping.remove m := by
  induction names generalizing m with
  | nil => rfl
  | cons name names ih =>
    rw [List.foldl_cons, List.foldl_cons, remove_append fun e he => h e he name List.mem_cons_self]
    exact ih (fun e he n hn => h e he n (List.mem_cons_of_mem _ hn)) _

theorem foldl_remove_all (h : m.Keyed) (hall : ∀ e ∈ m, ∃ name ∈ names, e.1 = .string name) :
    names.foldl Mapping.remove m = [] := by
  refine List.Perm.eq_nil ((foldl_remove_perm h names).trans
    (List.Perm.of_eq (List.filter_eq_nil_iff.2 fun e he => ?_)))
  obtain ⟨name, hname, heq⟩ := hall e he
  have hany : names.any (fun name => (Value.string name).same e.1) = true :=
    List.any_eq_true.2 ⟨name, hname, heq ▸ Value.same_refl _⟩
  simp [hany]

/-- **A block of entries taken out in its order** is filled from the end: the last entries, as many as go, stand in its
place in reverse. -/
theorem foldl_remove_block (hm : Keyed (pre ++ block ++ tail)) (hnodup : names.Nodup)
    (hblock : List.Sublist (block.map (·.1)) (names.map Value.string))
    (hpre : ∀ e ∈ pre, ∀ name ∈ names, e.1 ≠ .string name) (htail : ∀ e ∈ tail, ∀ name ∈ names, e.1 ≠ .string name) :
    names.foldl Mapping.remove (pre ++ block ++ tail) =
      pre ++ tail.reverse.take block.length ++ tail.take (tail.length - block.length) := by
  induction names generalizing pre block tail with
  | nil =>
    obtain rfl : block = [] := by simpa using hblock
    simp
  | cons name names ih =>
    obtain ⟨hnew, hnodup'⟩ := List.nodup_cons.1 hnodup
    have hpre' : ∀ e ∈ pre, ∀ n ∈ names, e.1 ≠ .string n := fun e he n hn => hpre e he n (List.mem_cons_of_mem _ hn)
    have htail' : ∀ e ∈ tail, ∀ n ∈ names, e.1 ≠ .string n := fun e he n hn => htail e he n (List.mem_cons_of_mem _ hn)
    rcases List.sublist_cons_iff.1 hblock with hsub | ⟨keys, hkeys, hsub⟩
    · -- there is no entry at the first name
      have hnone : ∀ e ∈ pre ++ block ++ tail, e.1 ≠ .string name := by
        intro e he heq
        rcases List.mem_append.1 he with he | he
        · rcases List.mem_append.1 he with he | he
          · exact hpre e he name List.mem_cons_self heq
          · obtain ⟨n, hn, hname⟩ := List.mem_map.1 (hsub.subset (List.mem_map_of_mem he))
            rw [heq] at hname
            cases hname
            exact hnew hn
        · exact htail e he name List.mem_cons_self heq
      rw [List.foldl_cons, remove_of_not_mem hnone]
      exact ih hm hnodup' hsub hpre' htail'
    · rcases List.eq_nil_or_concat tail with rfl | ⟨tail, last, rfl⟩
      · have hall : ∀ e ∈ block, ∃ n ∈ name :: names, e.1 = .string n := fun e he => by
          obtain ⟨n, hn, hname⟩ := List.mem_map.1 (hblock.subset (List.mem_map_of_mem he))
          exact ⟨n, hn, hname.symm⟩
        have hkeyed : block.Keyed := hm.sublist ((List.sublist_append_right _ _).trans (List.sublist_append_left _ _))
        rw [List.append_nil, foldl_remove_append hpre, foldl_remove_all hkeyed hall]
        simp
      · obtain ⟨e, block, rfl, he, hmap⟩ := List.map_eq_cons_iff.1 hkeys
        -- the first entry of the block goes, and the last one of all joins what is in front
        have hstep : Mapping.remove (pre ++ (e :: block) ++ tail.concat last) name =
            pre ++ [last] ++ block ++ tail := by
          rw [List.append_assoc, remove_append fun e he => hpre e he name List.mem_cons_self,
            List.concat_eq_append, List.cons_append, ← List.append_assoc, remove_cons_concat he]
          simp
        have hkeyed := hm.remove name
        rw [hstep] at hkeyed
        rw [List.foldl_cons, hstep, ih hkeyed hnodup' (hmap ▸ hsub)
          (List.forall_mem_append.2 ⟨hpre', List.forall_mem_singleton.2 (htail' last (by simp))⟩)
          fun e he => htail' e (by simp [he])]
        simp [List.take_append_of_le_length (Nat.sub_le tail.length block.length)]

/-! ## Extensions -/

def updated (pairs : Mapping) (e : Value × Value) : Value × Value := (e.1, (lookup? pairs e.1).getD e.2)

/-- **A mapping overlaid with another**: its entries in their order, with the other's values where that has the key, and
then those that only the other has, in the other's order. -/
def overlaid (m pairs : Mapping) : Mapping := m.map (updated pairs) ++ pairs.filter fun e => !m.contains e.1

theorem insert_of_contains (hm : m.Keyed) (hkey : key.repeatsKey = false) (h : m.contains key = true) (v : Value) :
    m.insert key v = m.map fun e => (e.1, if e.1.same key then v else e.2) := by
  induction m with
  | nil => cases h
  | cons e m ih =>
    obtain ⟨hfirst, -⟩ := List.pairwise_cons.1 hm.distinct
    have he := hm.keys e List.mem_cons_self
    rw [insert, List.map_cons, same_comm he hkey]
    by_cases hsame : key.same e.1 = true
    · -- a key that comes once is at no other entry
      have hother : ∀ x ∈ m, (x.1, if x.1.same key then v else x.2) = x := fun x hx => by
        have hx' := hm.keys x (List.mem_cons_of_mem _ hx)
        rw [if_neg]
        intro hkx
        have hex := Value.same_symm hx' he (Value.same_trans hkx hsame)
        rw [hfirst x hx] at hex
        cases hex
      rw [if_pos hsame, if_pos hsame, List.map_congr_left hother, List.map_id']
    · rw [if_neg hsame, if_neg hsame, ih (hm.sublist (List.sublist_cons_self _ _)) (by simpa [contains, hsame] using h)]

theorem lookup?_eq_none_of_same (hp : Keyed (e :: pairs)) (hkey : key.repeatsKey = false) (h : key.same e.1 = true) :
    lookup? pairs key = none := by
  refine lookup?_eq_none.2 fun x hx => ?_
  by_contra hkx
  have hex := Value.same_trans (Value.same_symm hkey (hp.keys e List.mem_cons_self) h) (by simpa using hkx)
  rw [(List.pairwise_cons.1 hp.distinct).1 x hx] at hex
  cases hex

theorem overlaid_insert (hm : m.Keyed) (hp : Keyed (e :: pairs)) :
    (m.insert e.1 e.2).overlaid pairs = m.overlaid (e :: pairs) := by
  have he := hp.keys e List.mem_cons_self
  have hnone : lookup? pairs e.1 = none := lookup?_eq_none_of_same hp he (Value.same_refl _)
  cases hc : m.contains e.1 with
  | true =>
    rw [insert_of_contains hm he hc, overlaid, overlaid, List.map_map, List.filter_cons_of_neg (by simp [hc])]
    refine congrArg₂ _ (List.map_congr_left fun x hx => congrArg (Prod.mk x.1) ?_) (List.filter_congr fun x _ => ?_)
    · rw [lookup?_cons]
      by_cases hsame : x.1.same e.1 = true
      · simp [hsame, lookup?_eq_none_of_same hp (hm.keys x hx) hsame]
      · simp [hsame]
    · simp [contains, List.any_map, Function.comp_def]
  | false =>
    have hold : ∀ x ∈ m, updated pairs x = updated (e :: pairs) x := fun x hx => by
      rw [updated, updated, lookup?_cons, same_comm (hm.keys x hx) he, contains_eq_false.1 hc x hx]
      rfl
    have hnew : pairs.filter (fun x => !contains (m ++ [(e.1, e.2)]) x.1) = pairs.filter fun x => !m.contains x.1 :=
      List.filter_congr fun x hx => by
        have hx' : x.1.same e.1 = false := by
          rw [same_comm (hp.keys x (List.mem_cons_of_mem _ hx)) he]
          exact (List.pairwise_cons.1 hp.distinct).1 x hx
        simp [contains, hx']
    rw [insert_of_contains_eq_false hc, overlaid, overlaid, List.map_append, List.map_congr_left hold,
      hnew, List.append_assoc, List.filter_cons_of_pos (by simp [hc]), List.map_singleton, updated, hnone]
    rfl

theorem extend_eq_overlaid (hm : m.Keyed) (hp : Keyed pairs) : m.extend pairs = m.overlaid pairs := by
  induction pairs generalizing m with
  | nil => exact (List.map_id m).symm.trans (List.append_nil _).symm
  | cons e pairs ih =>
    rw [← overlaid_insert hm hp, ← ih (hm.insert (hp.keys e List.mem_cons_self) e.2)
      (hp.sublist (List.sublist_cons_self _ _))]
    rfl

theorem Keyed.nodup (h : m.Keyed) : m.Nodup := h.distinct.imp fun {a b} hab heq => by
  rw [heq, Value.same_refl] at hab
  cases hab

theorem Keyed.eq_of_keys {m₁ m₂ : Mapping} (h : m.Keyed) (h₁ : m₁ ⊆ m) (h₂ : m₂ ⊆ m)
    (hkeys : m₁.map (·.1) = m₂.map (·.1)) :
    m₁ = m₂ := by
  have hself : ∀ {l : Mapping}, l ⊆ m → (l.map (·.1)).map (fun key => (key, (m.lookup? key).getD .null)) = l := by
    intro l hl
    rw [List.map_map]
    refine (List.map_congr_left fun e he => ?_).trans (List.map_id l)
    simp [(lookup?_eq_some h (h.keys e (hl he))).2 ⟨e, hl he, Value.same_refl _, rfl⟩]
  rw [← hself h₁, ← hself h₂, hkeys]

/-- **Entries that are gone before a mapping is overlaid**: the outcome is as if they were not just when the others come
first, in their order, and the overlay gives the ones that are gone again, in theirs, before all that only it has. -/
theorem overlaid_eq_overlaid_iff {test : Value × Value → Bool} {kept : Mapping} (hm : m.Keyed)
    (hkept : List.Perm kept (m.filter fun e => !test e)) : kept.overlaid pairs = m.overlaid pairs ↔
      m = kept ++ m.filter test ∧
        (pairs.filter fun e => !kept.contains e.1) = (m.filter test).map (updated pairs) ++ pairs.filter fun e =>
          !m.contains e.1 := by
  have hsub : kept ⊆ m := fun e he => (List.mem_filter.1 (hkept.subset he)).1
  constructor
  · intro heq
    have hlen : (kept.map (updated pairs)).length ≤ (m.map (updated pairs)).length := by
      rw [List.length_map, List.length_map, hkept.length_eq]
      exact List.length_filter_le _ _
    obtain ⟨rest, hm', hrest⟩ : ∃ rest, m.map (updated pairs) = kept.map (updated pairs) ++ rest ∧
        (pairs.filter fun e => !kept.contains e.1) = rest ++ pairs.filter fun e => !m.contains e.1 := by
      rcases List.append_eq_append_iff.1 heq with ⟨rest, h, h'⟩ | ⟨rest, h, h'⟩
      · exact ⟨rest, h, h'⟩
      · obtain rfl : rest = [] := by
          rw [h, List.length_append] at hlen
          exact List.eq_nil_of_length_eq_zero (by omega)
        exact ⟨[], by simpa using h.symm, by simpa using h'.symm⟩
    obtain ⟨front, back, rfl, hfront, rfl⟩ := List.map_eq_append_iff.1 hm'
    have hkeys : front.map (·.1) = kept.map (·.1) := by
      simpa [updated, List.map_map, Function.comp_def] using congrArg (List.map (·.1)) hfront
    obtain rfl := hm.eq_of_keys (List.subset_append_left _ _) hsub hkeys
    -- none of the entries in front is gone, so all behind them are
    have hstays : ∀ e ∈ front, test e = false := fun e he => by simpa using (List.mem_filter.1 (hkept.subset he)).2
    have hgone : ∀ e ∈ back, test e = true := by
      have hall := hkept.length_eq
      rw [List.filter_append, List.filter_eq_self.2 fun e he => by simp [hstays e he], List.length_append] at hall
      simpa using List.filter_eq_nil_iff.1 (List.eq_nil_of_length_eq_zero
        (by omega : (back.filter fun e => !test e).length = 0))
    rw [List.filter_append, filter_of_sublist (List.Sublist.refl _) hstays, List.filter_eq_self.2 hgone]
    exact ⟨rfl, hrest⟩
  · rintro ⟨hm', hpairs⟩
    rw [overlaid, hpairs, overlaid, ← List.append_assoc, ← List.map_append, ← hm']

end Mapping
end SignalCatalog
