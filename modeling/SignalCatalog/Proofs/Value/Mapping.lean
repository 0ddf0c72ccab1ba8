import SignalCatalog.Proofs.Value.Same
/-!
# Mappings with each key once

What look-ups find after an insertion, an extension or a removal.  Keys are compared as values are, so all of this needs
keys on which equality is symmetric.
-/
namespace SignalCatalog
namespace Mapping

variable {m m' pairs : Mapping} {key k v : Value} {e : Value × Value} {name : String} {names : List String}
  {test : Value × Value → Bool}

/-- **A mapping that has each key once**, and no key that repeats one within itself. -/
structure Keyed (m : Mapping) : Prop where
  distinct : m.Distinct
  keys : ∀ e ∈ m, e.1.repeatsKey = false

theorem keyed_nil : Keyed [] := ⟨List.Pairwise.nil, by simp⟩

theorem Keyed.sublist (h : m.Keyed) (hs : List.Sublist m' m) : Keyed m' :=
  ⟨h.distinct.sublist hs, fun e he => h.keys e (hs.subset he)⟩

theorem keyed_append : Keyed (m ++ m') ↔ m.Keyed ∧ m'.Keyed ∧ ∀ e ∈ m, ∀ e' ∈ m', e.1.same e'.1 = false := by
  constructor
  · intro h
    exact ⟨h.sublist (List.sublist_append_left _ _), h.sublist (List.sublist_append_right _ _),
      (List.pairwise_append.1 h.distinct).2.2⟩
  · rintro ⟨h, h', hdiff⟩
    refine ⟨List.pairwise_append.2 ⟨h.distinct, h'.distinct, hdiff⟩, fun e he => ?_⟩
    exact (List.mem_append.1 he).elim (h.keys e) (h'.keys e)

theorem same_comm (hk : k.repeatsKey = false) (hkey : key.repeatsKey = false) : k.same key = key.same k :=
  Bool.eq_iff_iff.2 ⟨Value.same_symm hk hkey, Value.same_symm hkey hk⟩

theorem Keyed.perm (h : m.Keyed) (hp : List.Perm m m') : Keyed m' := by
  refine ⟨?_, fun e he => h.keys e (hp.mem_iff.2 he)⟩
  have hsymm : List.Pairwise (fun a b : Value × Value => (a.1.same b.1 = false ∧ a.1.repeatsKey = false) ∧
      b.1.repeatsKey = false) m :=
    List.Pairwise.imp_of_mem (fun ha hb hab => ⟨⟨hab, h.keys _ ha⟩, h.keys _ hb⟩) h.distinct
  refine (hp.pairwise hsymm ?_).imp fun hab => hab.1.1
  rintro a b ⟨⟨hab, ha⟩, hb⟩
  exact ⟨⟨by rw [same_comm hb ha, hab], hb⟩, ha⟩

/-! ## Look-ups -/

theorem lookup?_cons : lookup? (e :: m) key = if key.same e.1 then some e.2 else m.lookup? key := by
  rw [lookup?, List.find?_cons]
  cases key.same e.1 <;> rfl

theorem lookup?_append : lookup? (m ++ m') key = (m.lookup? key).or (m'.lookup? key) := by
  rw [lookup?, List.find?_append, lookup?, lookup?]
  cases List.find? (fun e => key.same e.1) m <;> rfl

theorem lookup?_eq_none : m.lookup? key = none ↔ ∀ e ∈ m, key.same e.1 = false := by simp [lookup?]

theorem contains_eq_false : m.contains key = false ↔ ∀ e ∈ m, key.same e.1 = false := by simp [contains]

theorem get?_eq_none : m.get? name = none ↔ ∀ e ∈ m, e.1 ≠ .string name := by
  rw [get?, lookup?_eq_none]
  refine forall₂_congr fun e _ => ?_
  rw [← Bool.not_eq_true, Value.same_string_iff]

theorem lookup?_eq_some (h : m.Keyed) (hkey : key.repeatsKey = false) :
    m.lookup? key = some v ↔ ∃ e ∈ m, key.same e.1 = true ∧ e.2 = v := by
  induction m with
  | nil => simp [lookup?]
  | cons x m ih =>
    obtain ⟨hfirst, -⟩ := List.pairwise_cons.1 h.distinct
    rw [lookup?_cons]
    by_cases hx : key.same x.1 = true
    · rw [if_pos hx, Option.some_inj]
      constructor
      · exact fun hv => ⟨x, List.mem_cons_self, hx, hv⟩
      · rintro ⟨e, he, hsame, hv⟩
        rcases List.mem_cons.1 he with rfl | he
        · exact hv
        · have := Value.same_trans (Value.same_symm hkey (h.keys x List.mem_cons_self) hx) hsame
          rw [hfirst e he] at this
          cases this
    · rw [if_neg hx, ih (h.sublist (List.sublist_cons_self _ _))]
      constructor
      · rintro ⟨e, he, hsame, hv⟩
        exact ⟨e, List.mem_cons_of_mem _ he, hsame, hv⟩
      · rintro ⟨e, he, hsame, hv⟩
        rcases List.mem_cons.1 he with rfl | he
        · exact absurd hsame hx
        · exact ⟨e, he, hsame, hv⟩

theorem lookup?_perm (h : m.Keyed) (hkey : key.repeatsKey = false) (hp : List.Perm m m') :
    m.lookup? key = lookup? m' key :=
  Option.ext fun v => by simp only [lookup?_eq_some h hkey, lookup?_eq_some (h.perm hp) hkey, hp.mem_iff]

theorem lookup?_filter (htest : ∀ e ∈ m, key.same e.1 = true → test e = true) :
    lookup? (m.filter test) key = m.lookup? key := by
  induction m with
  | nil => rfl
  | cons e m ih =>
    obtain ⟨hfirst, hrest⟩ := List.forall_mem_cons.1 htest
    rw [List.filter_cons]
    split
    · rw [lookup?_cons, lookup?_cons, ih hrest]
    · rename_i he
      rw [lookup?_cons, if_neg (mt hfirst he), ih hrest]

theorem lookup?_filter_eq_none (htest : ∀ e ∈ m, key.same e.1 = true → test e = false) :
    lookup? (m.filter test) key = none := by
  refine lookup?_eq_none.2 fun e he => ?_
  obtain ⟨hmem, ht⟩ := List.mem_filter.1 he
  by_contra hsame
  rw [htest e hmem (by simpa using hsame)] at ht
  cases ht

/-! ## Changes -/

theorem insert_of_contains_eq_false (h : m.contains key = false) : m.insert key v = m ++ [(key, v)] := by
  induction m with
  | nil => rfl
  | cons e m ih =>
    obtain ⟨hfirst, hrest⟩ := List.forall_mem_cons.1 (contains_eq_false.1 h)
    rw [insert, hfirst, ih (contains_eq_false.2 hrest)]
    rfl

theorem extend_of_keyed (h : Keyed (m ++ pairs)) : m.extend pairs = m ++ pairs := by
  induction pairs generalizing m with
  | nil => simp [extend]
  | cons e pairs ih =>
    have hnew : m.contains e.1 = false := contains_eq_false.2 fun e' he' => by
      have hdiff := (keyed_append.1 h).2.2 e' he' e List.mem_cons_self
      rwa [same_comm (h.keys e (by simp)) (h.keys e' (by simp [he']))]
    have hsplit : m ++ e :: pairs = (m ++ [e]) ++ pairs := by simp
    rw [hsplit] at h ⊢
    rw [extend, List.foldl_cons, insert_of_contains_eq_false hnew]
    exact ih h

theorem ofPairs_of_keyed (h : Keyed pairs) : ofPairs pairs = pairs := extend_of_keyed (m := []) h

theorem keys_insert : ∀ x ∈ m.insert k v, (∃ e ∈ m, e.1 = x.1) ∨ x.1 = k := by
  induction m with
  | nil => simp [insert]
  | cons e m ih =>
    obtain ⟨k', v'⟩ := e
    rw [insert]
    split
    · simp only [List.forall_mem_cons]
      exact ⟨.inl ⟨_, List.mem_cons_self, rfl⟩, fun x hx => .inl ⟨x, List.mem_cons_of_mem _ hx, rfl⟩⟩
    · simp only [List.forall_mem_cons]
      refine ⟨.inl ⟨_, List.mem_cons_self, rfl⟩, fun x hx => (ih x hx).imp_left ?_⟩
      rintro ⟨e, he, heq⟩
      exact ⟨e, List.mem_cons_of_mem _ he, heq⟩

theorem Keyed.insert (h : m.Keyed) (hk : k.repeatsKey = false) (v : Value) : (m.insert k v).Keyed := by
  refine ⟨?_, fun x hx => ?_⟩
  · induction m with
    | nil => exact List.pairwise_singleton _ _
    | cons e m ih =>
      obtain ⟨k', v'⟩ := e
      obtain ⟨hfirst, hrest⟩ := List.pairwise_cons.1 h.distinct
      have hk' := h.keys (k', v') List.mem_cons_self
      rw [Mapping.insert]
      split
      · exact List.pairwise_cons.2 ⟨hfirst, hrest⟩
      · rename_i hne
        refine List.pairwise_cons.2 ⟨fun x hx => ?_, ih (h.sublist (List.sublist_cons_self _ _))⟩
        rcases keys_insert x hx with ⟨e, he, heq⟩ | heq
        · rw [← heq]
          exact hfirst e he
        · rw [heq, same_comm hk' hk]
          simpa using hne
  · rcases keys_insert x hx with ⟨e, he, heq⟩ | heq
    · rw [← heq]
      exact h.keys e he
    · rw [heq]
      exact hk

theorem lookup?_insert (h : m.Keyed) (hk : k.repeatsKey = false) (hkey : key.repeatsKey = false) :
    (m.insert k v).lookup? key = if key.same k then some v else m.lookup? key := by
  induction m with
  | nil => simp [insert, lookup?_cons]
  | cons e m ih =>
    obtain ⟨k', v'⟩ := e
    have hk' := h.keys (k', v') List.mem_cons_self
    rw [insert]
    split
    · rename_i hsame
      have hiff : key.same k' = key.same k := Bool.eq_iff_iff.2
        ⟨fun hx => Value.same_trans hx (Value.same_symm hk hk' hsame), fun hx => Value.same_trans hx hsame⟩
      rw [lookup?_cons, lookup?_cons, hiff]
      split <;> rfl
    · rename_i hne
      rw [lookup?_cons, lookup?_cons, ih (h.sublist (List.sublist_cons_self _ _))]
      by_cases hx : key.same k = true
      · have hx' : key.same k' = false := by
          by_contra hx'
          exact hne (Value.same_trans (Value.same_symm hkey hk hx) (by simpa using hx'))
        simp [hx, hx']
      · simp [hx]

theorem Keyed.extend (h : m.Keyed) (hp : Keyed pairs) : (m.extend pairs).Keyed := by
  induction pairs generalizing m with
  | nil => exact h
  | cons e pairs ih => exact ih (h.insert (hp.keys e List.mem_cons_self) e.2) (hp.sublist (List.sublist_cons_self _ _))

theorem lookup?_extend (h : m.Keyed) (hp : Keyed pairs) (hkey : key.repeatsKey = false) :
    (m.extend pairs).lookup? key = (lookup? pairs key).or (m.lookup? key) := by
  induction pairs generalizing m with
  | nil => rfl
  | cons e pairs ih =>
    have he := hp.keys e List.mem_cons_self
    have hrest := hp.sublist (List.sublist_cons_self _ _)
    rw [Mapping.extend, List.foldl_cons]
    refine (ih (h.insert he e.2) hrest).trans ?_
    rw [lookup?_insert h he hkey, lookup?_cons]
    split
    · rename_i hsame
      have hnone : lookup? pairs key = none := by
        refine lookup?_eq_none.2 fun e' he' => ?_
        by_contra hx
        have := Value.same_trans (Value.same_symm hkey he hsame) (by simpa using hx)
        rw [(List.pairwise_cons.1 hp.distinct).1 e' he'] at this
        cases this
      rw [hnone]
      rfl
    · rfl

theorem insert_of_lookup? (h : m.lookup? k = some v) : m.insert k v = m := by
  induction m with
  | nil => cases h
  | cons e m ih =>
    rw [lookup?_cons] at h
    rw [Mapping.insert]
    split at h
    · rename_i hsame
      cases h
      rw [if_pos hsame]
    · rename_i hsame
      rw [if_neg hsame, ih h]

theorem extend_of_lookup? (h : ∀ e ∈ pairs, m.lookup? e.1 = some e.2) : m.extend pairs = m := by
  induction pairs with
  | nil => rfl
  | cons e pairs ih =>
    obtain ⟨he, hrest⟩ := List.forall_mem_cons.1 h
    rw [Mapping.extend, List.foldl_cons, insert_of_lookup? he]
    exact ih hrest

section Filter

variable {keep : Value → Bool} (hkeep : ∀ a b : Value, a.same b = true → keep b = keep a)
include hkeep

/-- **A choice of keys** that does not tell equal keys apart goes through insertions. -/
theorem filter_insert : (m.insert k v).filter (fun e => keep e.1) =
    if keep k then Mapping.insert (m.filter fun e => keep e.1) k v else m.filter fun e => keep e.1 := by
  induction m with
  | nil => cases hk : keep k <;> simp [Mapping.insert, hk]
  | cons e m ih =>
    rw [Mapping.insert]
    by_cases hsame : k.same e.1 = true
    · have he := hkeep k e.1 hsame
      cases hk : keep k <;> simp [Mapping.insert, hk, he, hsame]
    · cases hk : keep k <;> cases he : keep e.1 <;> simp_all [Mapping.insert]

theorem filter_extend : (m.extend pairs).filter (fun e => keep e.1) =
    Mapping.extend (m.filter fun e => keep e.1) (pairs.filter fun e => keep e.1) := by
  induction pairs generalizing m with
  | nil => rfl
  | cons e pairs ih =>
    rw [Mapping.extend, List.foldl_cons]
    refine ih.trans ?_
    rw [filter_insert hkeep]
    cases he : keep e.1 <;> simp [he, Mapping.extend]

end Filter

theorem remove_perm (h : m.Keyed) (name : String) :
    List.Perm (m.remove name) (m.filter fun e => !(Value.string name).same e.1) := by
  rw [remove]
  split
  · rename_i hnone
    rw [List.findIdx?_eq_none_iff] at hnone
    rw [List.filter_eq_self.2 fun e he => by simp [hnone e he]]
  · rename_i i hsome
    obtain ⟨hlt, hi, -⟩ := List.findIdx?_eq_some_iff_getElem.1 hsome
    obtain ⟨s, x, s', rfl, hlen, hx⟩ : ∃ s x s', m = s ++ x :: s' ∧ s.length = i ∧ x.1 = .string name := by
      refine ⟨m.take i, m[i], m.drop (i + 1), ?_, by simp; omega, (Value.same_string_iff name _).1 hi⟩
      rw [← List.drop_eq_getElem_cons, List.take_append_drop]
    have hother : ∀ e ∈ s ++ s', (!(Value.string name).same e.1) = true := by
      intro e he
      rw [Bool.not_eq_true', ← Bool.not_eq_true, Value.same_string_iff]
      intro heq
      obtain ⟨-, hrest, hdiff⟩ := List.pairwise_append.1 h.distinct
      rcases List.mem_append.1 he with he | he
      · have := hdiff e he x List.mem_cons_self
        rw [heq, hx, Value.same_refl] at this
        cases this
      · have := (List.pairwise_cons.1 hrest).1 e he
        rw [heq, hx, Value.same_refl] at this
        cases this
    have hfilter : (s ++ x :: s').filter (fun e => !(Value.string name).same e.1) = s ++ s' := by
      have hgone : ¬ (!(Value.string name).same x.1) = true := by simp [hx, Value.same_refl]
      rw [List.filter_append, List.filter_cons, if_neg hgone, ← List.filter_append, List.filter_eq_self.2 hother]
    rw [hfilter, ← hlen]
    rcases List.eq_nil_or_concat s' with rfl | ⟨s', y, rfl⟩
    · simp
    · -- the last entry takes the place of the one that goes
      have hlast : (s ++ x :: (s' ++ [y])).getLast? = some y := by
        rw [← List.cons_append, ← List.append_assoc, List.getLast?_concat]
      have hset : ((s ++ x :: (s' ++ [y])).set s.length y).dropLast = s ++ y :: s' := by
        rw [List.set_append_right _ _ (Nat.le_refl _), Nat.sub_self, List.set_cons_zero,
          ← List.cons_append, ← List.append_assoc, List.dropLast_concat]
      rw [List.concat_eq_append, hlast]
      dsimp only
      rw [hset]
      exact List.Perm.append_left s (List.perm_append_singleton y s').symm

theorem Keyed.remove (h : m.Keyed) (name : String) : (m.remove name).Keyed :=
  (h.sublist List.filter_sublist).perm (remove_perm h name).symm

theorem lookup?_remove (h : m.Keyed) (hkey : key.repeatsKey = false) (name : String) :
    (m.remove name).lookup? key = if (Value.string name).same key then none else m.lookup? key := by
  rw [← lookup?_perm (h.sublist List.filter_sublist) hkey (remove_perm h name).symm]
  split
  · rename_i heq
    refine lookup?_filter_eq_none fun e he hsame => ?_
    rw [Value.same_trans heq hsame]
    rfl
  · rename_i hne
    refine lookup?_filter fun e he hsame => ?_
    rw [Bool.not_eq_true', ← Bool.not_eq_true]
    exact fun heq => hne (Value.same_trans heq (Value.same_symm hkey (h.keys e he) hsame))

theorem Keyed.foldl_remove (h : m.Keyed) : (names.foldl Mapping.remove m).Keyed := by
  induction names generalizing m with
  | nil => exact h
  | cons name names ih => exact ih (h.remove name)

theorem lookup?_foldl_remove (h : m.Keyed) (hkey : key.repeatsKey = false) :
    (names.foldl Mapping.remove m).lookup? key =
    if names.any (fun name => (Value.string name).same key) then none else m.lookup? key := by
  induction names generalizing m with
  | nil => rfl
  | cons name names ih =>
    rw [List.foldl_cons, ih (h.remove name), lookup?_remove h hkey, List.any_cons]
    cases (Value.string name).same key <;> cases names.any fun name => (Value.string name).same key <;> rfl

end Mapping
end SignalCatalog
