import Mathlib.Data.List.Dedup
/-!
# Lists that keep equal entries together

A list in which equal entries stand together is told by its entries in their order, each with the number of times it is
there.
-/
namespace SignalCatalog

/-- **The entries of a list**, each with the number of times it is there. -/
def tally (l : List Nat) : List (Nat × Nat) := l.dedup.map fun c => (l.count c, c)

/-- The list that a tally spells. -/
def untally {α : Type} (es : List (Nat × α)) : List α := es.flatMap fun e => List.replicate e.1 e.2

/-- **Equal entries stand together.** -/
def Grouped (l : List Nat) : Prop := untally (tally l) = l

/-- The first entry is there another number of times, unless that is none. -/
def lead {α : Type} (n : Nat) : List (Nat × α) → List (Nat × α)
  | [] => []
  | e :: r => (if n = 0 then e.1 else n, e.2) :: r

variable {α β : Type} {es r : List (Nat × Nat)} {l : List Nat} {c k n : Nat}

theorem untally_cons (e : Nat × α) (es : List (Nat × α)) :
    untally (e :: es) = List.replicate e.1 e.2 ++ untally es := rfl

theorem untally_map (es : List (Nat × α)) (g : α → β) :
    untally (es.map fun e => (e.1, g e.2)) = (untally es).map g := by
  simp [untally, List.flatMap_map, List.map_flatMap]

theorem untally_ones (l : List α) : untally (l.map fun c => (1, c)) = l := by simp [untally, List.flatMap_map]

theorem lead_map (es : List (Nat × α)) (g : α → β) :
    lead n (es.map fun e => (e.1, g e.2)) = (lead n es).map fun e => (e.1, g e.2) := by
  cases es <;> rfl

@[simp] theorem lead_zero (es : List (Nat × α)) : lead 0 es = es := by
  cases es <;> rfl

theorem mem_of_mem_untally {x : α} {es : List (Nat × α)} (h : x ∈ untally es) : ∃ k, (k, x) ∈ es := by
  obtain ⟨e, he, hx⟩ := List.mem_flatMap.1 h
  exact ⟨e.1, (List.mem_replicate.1 hx).2 ▸ he⟩

/-! ## Tallies -/

/-- **A list of entries with numbers is a tally** when the entries differ and none is there no times. -/
structure IsTally (es : List (Nat × Nat)) : Prop where
  nodup : (es.map (·.2)).Nodup
  pos : ∀ e ∈ es, 0 < e.1

theorem IsTally.tail {e : Nat × Nat} (h : IsTally (e :: es)) : IsTally es :=
  ⟨(List.nodup_cons.1 h.nodup).2, fun e' he' => h.pos e' (List.mem_cons_of_mem _ he')⟩

theorem IsTally.not_mem (h : IsTally ((k, c) :: es)) : c ∉ untally es := fun hc =>
  let ⟨_, hk⟩ := mem_of_mem_untally hc
  (List.nodup_cons.1 h.nodup).1 (List.mem_map.2 ⟨_, hk, rfl⟩)

theorem isTally_tally (l : List Nat) : IsTally (tally l) where
  nodup := by
    rw [tally, List.map_map]
    exact (List.map_id' l.dedup).symm ▸ l.nodup_dedup
  pos := by
    intro e he
    obtain ⟨c, hc, rfl⟩ := List.mem_map.1 he
    exact List.count_pos_iff.2 (List.mem_dedup.1 hc)

theorem dedup_replicate_append (hk : 0 < k) (hc : c ∉ l) : (List.replicate k c ++ l).dedup = c :: l.dedup := by
  induction k with
  | zero => omega
  | succ k ih =>
    rw [List.replicate_succ, List.cons_append]
    by_cases hk : 0 < k
    · rw [List.dedup_cons_of_mem (List.mem_append_left _ (List.mem_replicate.2 ⟨by omega, rfl⟩)), ih hk]
    · obtain rfl : k = 0 := by omega
      exact List.dedup_cons_of_notMem hc

theorem tally_untally (h : IsTally es) : tally (untally es) = es := by
  induction es with
  | nil => rfl
  | cons e es ih =>
    obtain ⟨k, c⟩ := e
    have hc := h.not_mem
    have hrest : (untally es).dedup.map (fun b => ((List.replicate k c ++ untally es).count b, b)) =
        tally (untally es) := by
      refine List.map_congr_left fun b hb => ?_
      have hbc : c ≠ b := by
        rintro rfl
        exact hc (List.mem_dedup.1 hb)
      rw [List.count_append, List.count_replicate, if_neg (by simpa using hbc), Nat.zero_add]
    rw [tally, untally_cons, dedup_replicate_append (h.pos _ List.mem_cons_self) hc, List.map_cons, hrest, ih h.tail,
      List.count_append, List.count_replicate_self, List.count_eq_zero.2 hc, Nat.add_zero]

theorem grouped_untally (h : IsTally es) : Grouped (untally es) := by rw [Grouped, tally_untally h]

theorem tally_of_nodup (h : l.Nodup) : tally l = l.map fun c => (1, c) := by
  have hones : IsTally (l.map fun c => (1, c)) := ⟨by rw [List.map_map]; exact (List.map_id' l).symm ▸ h, by simp⟩
  have := tally_untally hones
  rwa [untally_ones] at this

theorem grouped_of_nodup (h : l.Nodup) : Grouped l := by rw [Grouped, tally_of_nodup h, untally_ones]

theorem mem_tally {e : Nat × Nat} (h : e ∈ tally l) : e.2 ∈ l ∧ e.1 = l.count e.2 := by
  obtain ⟨c, hc, rfl⟩ := List.mem_map.1 h
  exact ⟨List.mem_dedup.1 hc, rfl⟩

theorem exists_mem_tally (h : c ∈ l) : (l.count c, c) ∈ tally l := List.mem_map.2 ⟨c, List.mem_dedup.2 h, rfl⟩

/-! ## Parts of grouped lists -/

theorem untally_filter (p : Nat → Bool) : (untally es).filter p = untally (es.filter fun e => p e.2) := by
  induction es with
  | nil => rfl
  | cons e es ih =>
    rw [untally_cons, List.filter_append, ih, List.filter_replicate, List.filter_cons]
    split <;> rfl

theorem Grouped.filter (h : Grouped l) (p : Nat → Bool) :
    Grouped (l.filter p) ∧ tally (l.filter p) = (tally l).filter fun e => p e.2 := by
  have hes := isTally_tally l
  have hpart : IsTally ((tally l).filter fun e => p e.2) :=
    ⟨hes.nodup.sublist (List.filter_sublist.map _), fun e he => hes.pos e (List.mem_of_mem_filter he)⟩
  rw [← h, untally_filter, h]
  exact ⟨grouped_untally hpart, tally_untally hpart⟩

theorem Grouped.exists_tally (h : Grouped l) (hc : l.head? = some c) : ∃ k r, tally l = (k, c) :: r := by
  have hes := isTally_tally l
  cases htally : tally l with
  | nil =>
    rw [← h, htally] at hc
    cases hc
  | cons e r =>
    have hpos := hes.pos e (htally ▸ List.mem_cons_self)
    rw [← h, htally, untally_cons, List.head?_append_of_ne_nil _ (by simp; omega), List.head?_replicate,
      if_neg (by omega)] at hc
    cases hc
    exact ⟨e.1, r, rfl⟩

/-- **The first entry moved to the front**, another number of times. -/
theorem Grouped.front (h : Grouped l) (hc : l.head? = some c) (hn : 0 < n) :
    Grouped (List.replicate n c ++ l.filter (· != c)) ∧ tally (List.replicate n c ++ l.filter (· != c)) =
      lead n (tally l) := by
  obtain ⟨k, r, htally⟩ := h.exists_tally hc
  have hes : IsTally ((k, c) :: r) := htally ▸ isTally_tally l
  have hnew : IsTally ((n, c) :: r) := ⟨hes.nodup, List.forall_mem_cons.2 ⟨hn, hes.tail.pos⟩⟩
  have hrest : l.filter (· != c) = untally r := by
    rw [← h, htally, untally_filter, List.filter_cons, if_neg (by simp), List.filter_eq_self.2 fun e he => ?_]
    rw [bne_iff_ne]
    rintro rfl
    exact (List.nodup_cons.1 hes.nodup).1 (List.mem_map.2 ⟨e, he, rfl⟩)
  rw [hrest, htally, lead, if_neg (by omega)]
  exact ⟨grouped_untally hnew, tally_untally hnew⟩

end SignalCatalog
