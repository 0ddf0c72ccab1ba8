import Mathlib.Data.List.Forall2
import SignalCatalog.Value.Typed
/-!
# Equal values

`Value.same` is reflexive and transitive.  It is symmetric on values whose mappings have each key once: a mapping whose
entries all occur in another of the same length has then no fewer of them.
-/
namespace SignalCatalog

/-- **Where different things are related to different ones**, of which there are no more, every one of these is met. -/
theorem exists_of_pairwise {α β : Type} {R : α → β → Prop} {l : List α} {l' : List β} (hlen : l'.length ≤ l.length)
    (hdiff : l.Pairwise fun a a' => ∀ b, R a b → ¬ R a' b) (hall : ∀ a ∈ l, ∃ b ∈ l', R a b) :
    ∀ b ∈ l', ∃ a ∈ l, R a b := by
  induction l generalizing l' with
  | nil =>
    rw [List.length_nil, Nat.le_zero, List.length_eq_zero_iff] at hlen
    simp [hlen]
  | cons a l ih =>
    obtain ⟨hfirst, hdiff⟩ := List.pairwise_cons.1 hdiff
    obtain ⟨b₀, hb₀, hab⟩ := hall a List.mem_cons_self
    obtain ⟨s, s', rfl⟩ := List.append_of_mem hb₀
    have hrest : ∀ a' ∈ l, ∃ b ∈ s ++ s', R a' b := by
      intro a' ha'
      obtain ⟨b, hb, hab'⟩ := hall a' (List.mem_cons_of_mem _ ha')
      refine ⟨b, ?_, hab'⟩
      rw [List.mem_append, List.mem_cons] at hb
      rw [List.mem_append]
      rcases hb with hb | rfl | hb
      · exact .inl hb
      · exact absurd hab' (hfirst a' ha' _ hab)
      · exact .inr hb
    have hmet := ih (by simp at hlen ⊢; omega) hdiff hrest
    intro b hb
    rw [List.mem_append, List.mem_cons] at hb
    rcases hb with hb | rfl | hb
    · obtain ⟨a', ha', h⟩ := hmet b (List.mem_append_left _ hb)
      exact ⟨a', List.mem_cons_of_mem _ ha', h⟩
    · exact ⟨a, List.mem_cons_self, hab⟩
    · obtain ⟨a', ha', h⟩ := hmet b (List.mem_append_right _ hb)
      exact ⟨a', List.mem_cons_of_mem _ ha', h⟩

theorem forall₂_trans_of_mem {α : Type} {R : α → α → Prop} {as bs cs : List α} (h : List.Forall₂ R as bs)
    (h' : List.Forall₂ R bs cs) (htrans : ∀ a ∈ as, ∀ b c, R a b → R b c → R a c) : List.Forall₂ R as cs := by
  induction h generalizing cs with
  | nil => exact h'
  | cons hab _ ih =>
    cases h' with
    | cons hbc h' =>
      obtain ⟨hfirst, hrest⟩ := List.forall_mem_cons.1 htrans
      exact .cons (hfirst _ _ hab hbc) (ih h' hrest)

theorem forall₂_symm_of_mem {α : Type} {R : α → α → Prop} {as bs : List α} (h : List.Forall₂ R as bs)
    (hsymm : ∀ a ∈ as, ∀ b ∈ bs, R a b → R b a) : List.Forall₂ R bs as := by
  induction h with
  | nil => exact .nil
  | cons hab _ ih =>
    exact .cons (hsymm _ List.mem_cons_self _ List.mem_cons_self hab)
      (ih fun a ha b hb => hsymm a (List.mem_cons_of_mem _ ha) b (List.mem_cons_of_mem _ hb))

namespace Binary64

variable {x y z : Binary64}

theorem same_iff : x.same y = true ↔ x = y ∨ (x.isZero = true ∧ y.isZero = true) ∨
    (x.isNaN = true ∧ y.isNaN = true) := by
  simp [same, or_assoc]

theorem same_symm (h : x.same y = true) : y.same x = true := by
  rw [same_iff] at *
  tauto

theorem isNaN_of_isZero (h : x.isZero = true) : x.isNaN = false := by
  simp only [isZero, Bool.and_eq_true, beq_iff_eq] at h
  simp [isNaN, h.1]

theorem same_trans (h : x.same y = true) (h' : y.same z = true) : x.same z = true := by
  have hne : ¬ (y.isZero = true ∧ y.isNaN = true) := by
    rintro ⟨hzero, hnan⟩
    rw [isNaN_of_isZero hzero] at hnan
    cases hnan
  rw [same_iff] at *
  rcases h with rfl | h
  · exact h'
  · rcases h' with rfl | h'
    · exact .inr h
    · tauto

end Binary64

namespace Number

variable {a b c : Number}

theorem same_refl (a : Number) : a.same a = true := by cases a <;> simp [same, Binary64.same]

theorem same_symm (h : a.same b = true) : b.same a = true := by
  cases a <;> cases b <;> simp_all [same]
  exact Binary64.same_symm h

theorem same_trans (h : a.same b = true) (h' : b.same c = true) : a.same c = true := by
  cases a <;> cases b <;> cases c <;> simp_all [same]
  exact Binary64.same_trans h h'

end Number

namespace Value

/-- **Induction on values**, with what is known of all items of a list and of all keys and values of a mapping. -/
@[elab_as_elim]
theorem induction {P : Value → Prop} (null : P .null) (bool : ∀ b, P (.bool b)) (number : ∀ n, P (.number n))
    (string : ∀ s, P (.string s)) (list : ∀ items, (∀ v ∈ items, P v) → P (.list items))
    (mapping : ∀ entries, (∀ e ∈ entries, P e.1 ∧ P e.2) → P (.mapping entries))
    (tagged : ∀ tag v, P v → P (.tagged tag v)) : ∀ v, P v
  | .null => null
  | .bool b => bool b
  | .number n => number n
  | .string s => string s
  | .list items => list items fun v _ => induction null bool number string list mapping tagged v
  | .mapping entries => mapping entries fun e _ =>
    ⟨induction null bool number string list mapping tagged e.1,
      induction null bool number string list mapping tagged e.2⟩
  | .tagged tag v => tagged tag v (induction null bool number string list mapping tagged v)
termination_by v => sizeOf v
decreasing_by
  · have := List.sizeOf_lt_of_mem ‹v ∈ items›
    rw [Value.list.sizeOf_spec]
    omega
  · have := List.sizeOf_lt_of_mem ‹e ∈ entries›
    obtain ⟨k, v⟩ := e
    rw [Prod.mk.sizeOf_spec] at this
    rw [Value.mapping.sizeOf_spec]
    dsimp only
    omega
  · have := List.sizeOf_lt_of_mem ‹e ∈ entries›
    obtain ⟨k, v⟩ := e
    rw [Prod.mk.sizeOf_spec] at this
    rw [Value.mapping.sizeOf_spec]
    dsimp only
    omega
  · rw [Value.tagged.sizeOf_spec]
    omega

variable {a b c v : Value} {as bs : List Value} {ms ns : List (Value × Value)}

theorem sameItems_iff : sameItems as bs = true ↔ List.Forall₂ (fun a b => same a b = true) as bs := by
  induction as generalizing bs with
  | nil => cases bs <;> simp [sameItems]
  | cons a as ih => cases bs <;> simp [sameItems, ih]

theorem sameEntries_iff : sameEntries ms ns = true ↔
    ∀ e ∈ ms, ∃ e' ∈ ns, same e.1 e'.1 = true ∧ same e.2 e'.2 = true := by
  induction ms with
  | nil => simp [sameEntries]
  | cons e ms ih =>
    obtain ⟨k, v⟩ := e
    rw [sameEntries, Bool.and_eq_true, ih, List.forall_mem_cons, List.any_eq_true]
    simp only [Bool.and_eq_true]

theorem same_list_iff : same (.list as) b = true ↔
    ∃ bs, b = .list bs ∧ List.Forall₂ (fun a b => same a b = true) as bs := by
  cases b <;> simp [same, sameItems_iff]

theorem same_mapping_iff : same (.mapping ms) b = true ↔ ∃ ns, b = .mapping ns ∧ ms.length = ns.length ∧
    ∀ e ∈ ms, ∃ e' ∈ ns, same e.1 e'.1 = true ∧ same e.2 e'.2 = true := by
  cases b <;> simp [same, sameEntries_iff]

theorem same_tagged_iff {tag : Tag} : same (.tagged tag a) b = true ↔ ∃ b', b = .tagged tag b' ∧ same a b' = true := by
  cases b <;> simp [same]
  grind

theorem same_refl (v : Value) : same v v = true := by
  induction v using induction with
  | null => rfl
  | bool b => simp [same]
  | number n => exact n.same_refl
  | string s => simp [same]
  | list items ih => exact same_list_iff.2 ⟨items, rfl, List.forall₂_same.2 ih⟩
  | mapping entries ih => exact same_mapping_iff.2 ⟨entries, rfl, rfl, fun e he => ⟨e, he, ih e he⟩⟩
  | tagged tag v ih => exact same_tagged_iff.2 ⟨v, rfl, ih⟩

theorem same_trans (h : same a b = true) (h' : same b c = true) : same a c = true := by
  induction a using induction generalizing b c with
  | null => cases b <;> simp_all [same]
  | bool => cases b <;> cases c <;> simp_all [same]
  | number =>
    cases b <;> cases c <;> simp_all [same]
    exact Number.same_trans h h'
  | string => cases b <;> cases c <;> simp_all [same]
  | list items ih =>
    obtain ⟨bs, rfl, hab⟩ := same_list_iff.1 h
    obtain ⟨cs, rfl, hbc⟩ := same_list_iff.1 h'
    exact same_list_iff.2 ⟨cs, rfl, forall₂_trans_of_mem hab hbc fun v hv _ _ => ih v hv⟩
  | mapping entries ih =>
    obtain ⟨bs, rfl, hlen, hab⟩ := same_mapping_iff.1 h
    obtain ⟨cs, rfl, hlen', hbc⟩ := same_mapping_iff.1 h'
    refine same_mapping_iff.2 ⟨cs, rfl, hlen.trans hlen', fun e he => ?_⟩
    obtain ⟨e', he', hk, hv⟩ := hab e he
    obtain ⟨e'', he'', hk', hv'⟩ := hbc e' he'
    exact ⟨e'', he'', (ih e he).1 hk hk', (ih e he).2 hv hv'⟩
  | tagged tag v ih =>
    obtain ⟨b, rfl, hab⟩ := same_tagged_iff.1 h
    obtain ⟨c, rfl, hbc⟩ := same_tagged_iff.1 h'
    exact same_tagged_iff.2 ⟨c, rfl, ih hab hbc⟩

theorem repeatsKeyItems_eq_false : repeatsKeyItems as = false ↔ ∀ v ∈ as, v.repeatsKey = false := by
  induction as with
  | nil => simp [repeatsKeyItems]
  | cons a as ih => simp [repeatsKeyItems, ih]

theorem repeatsKeyEntries_eq_false : repeatsKeyEntries ms = false ↔
    Mapping.Distinct ms ∧ ∀ e ∈ ms, e.1.repeatsKey = false ∧ e.2.repeatsKey = false := by
  induction ms with
  | nil => simp [repeatsKeyEntries, Mapping.Distinct]
  | cons e ms ih =>
    obtain ⟨k, v⟩ := e
    rw [repeatsKeyEntries, Mapping.Distinct, List.pairwise_cons, List.forall_mem_cons]
    simp only [Bool.or_eq_false_iff, ih, Mapping.Distinct, Mapping.contains, List.any_eq_false]
    grind

theorem same_symm (ha : a.repeatsKey = false) (hb : b.repeatsKey = false) (h : same a b = true) : same b a = true := by
  induction a using induction generalizing b with
  | null => cases b <;> simp_all [same]
  | bool => cases b <;> simp_all [same]
  | number =>
    cases b <;> simp_all [same]
    exact Number.same_symm h
  | string => cases b <;> simp_all [same]
  | list items ih =>
    obtain ⟨bs, rfl, hab⟩ := same_list_iff.1 h
    rw [repeatsKey, repeatsKeyItems_eq_false] at ha hb
    exact same_list_iff.2 ⟨items, rfl, forall₂_symm_of_mem hab fun v hv w hw => ih v hv (ha v hv) (hb w hw)⟩
  | mapping entries ih =>
    obtain ⟨bs, rfl, hlen, hab⟩ := same_mapping_iff.1 h
    rw [repeatsKey, repeatsKeyEntries_eq_false] at ha hb
    have hsymm : ∀ e ∈ entries, ∀ e' ∈ bs, same e.1 e'.1 = true → same e'.1 e.1 = true := fun e he e' he' =>
      (ih e he).1 (ha.2 e he).1 (hb.2 e' he').1
    -- every entry of the second mapping is met by one of the first
    have hmet := exists_of_pairwise (R := fun e e' => e' ∈ bs ∧ same e.1 e'.1 = true ∧ same e.2 e'.2 = true)
      (Nat.le_of_eq hlen.symm) (List.Pairwise.imp_of_mem (fun {e f} _ hf hdiff e' hee hfe => by
        have := same_trans hee.2.1 (hsymm f hf e' hfe.1 hfe.2.1)
        rw [hdiff] at this
        cases this) ha.1) fun e he => by
        obtain ⟨e', he', hk, hv⟩ := hab e he
        exact ⟨e', he', he', hk, hv⟩
    refine same_mapping_iff.2 ⟨entries, rfl, hlen.symm, fun e' he' => ?_⟩
    obtain ⟨e, he, -, hk, hv⟩ := hmet e' he'
    exact ⟨e, he, hsymm e he e' he' hk, (ih e he).2 (ha.2 e he).2 (hb.2 e' he').2 hv⟩
  | tagged tag v ih =>
    obtain ⟨b, rfl, hab⟩ := same_tagged_iff.1 h
    exact same_tagged_iff.2 ⟨v, rfl, ih ha hb hab⟩

theorem asString?_of_same (h : same a b = true) : a.asString? = b.asString? := by
  induction a using induction generalizing b with
  | tagged tag v ih =>
    obtain ⟨w, rfl, hab⟩ := same_tagged_iff.1 h
    rw [asString?, asString?, untagged, untagged]
    exact ih hab
  | string s => rw [(same_string_iff s b).1 h]
  | _ => cases b <;> first | rfl | simp [same] at h

end Value
end SignalCatalog
