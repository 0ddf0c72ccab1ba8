import Mathlib.Data.List.Induction
import SignalCatalog.Proofs.Forest.Edit
/-!
# Routes

A route leads from a node to one below it, by the names it passes.  Where children and parent links agree and nothing is
above itself, a node has at most one route from any other; where in addition siblings differ by name, the names find the
node again.
-/
namespace SignalCatalog
namespace Forest

variable {f : Forest} {a b c d p x y : Nat} {q r : List String} {name : String}

/-- **Links agree**: a node is a child of exactly the node that its parent link names, and every step up
lowers a rank. -/
structure Linked (f : Forest) : Prop where
  mem_children : ∀ {p c : Nat}, c ∈ f.children p ↔ f.parent? c = some p
  ranked : ∃ rank : Nat → Nat, ∀ {c p : Nat}, f.parent? c = some p → rank p < rank c

/-- **The names on the way down** from one node to another. -/
inductive Route (f : Forest) (a : Nat) : List String → Nat → Prop
  | here : Route f a [] a
  | down {q : List String} {p c : Nat} : Route f a q p → f.parent? c = some p → Route f a (q ++ [(f.node c).name]) c

def Below (f : Forest) (a x : Nat) : Prop := ∃ q, f.Route a q x

/-- **Siblings at and below a node differ by name.** -/
def DistinctBelow (f : Forest) (a : Nat) : Prop :=
  ∀ ⦃p c d : Nat⦄, f.Below a p → f.parent? c = some p → f.parent? d = some p → (f.node c).name = (f.node d).name → c = d

def Apart (f : Forest) (a b : Nat) : Prop := ∀ ⦃x : Nat⦄, f.Below a x → ¬ f.Below b x

theorem Below.refl : f.Below a a := ⟨[], .here⟩

theorem Below.down (h : f.Below a p) (hc : f.parent? c = some p) : f.Below a c :=
  let ⟨_, h⟩ := h
  ⟨_, .down h hc⟩

theorem Linked.lt_count_parent (h : f.Linked) (hc : f.parent? c = some p) : p < f.count :=
  lt_count_of_mem_children (h.mem_children.2 hc)

namespace Route

theorem trans (h : f.Route a q b) (h' : f.Route b r x) : f.Route a (q ++ r) x := by
  induction h' with
  | here => rwa [List.append_nil]
  | down _ hc ih =>
    rw [← List.append_assoc]
    exact .down ih hc

theorem single (hc : f.parent? c = some p) : f.Route p [(f.node c).name] c := .down .here hc

theorem cons (hc : f.parent? c = some a) (h : f.Route c r x) : f.Route a ((f.node c).name :: r) x := (single hc).trans h

theorem eq_of_nil (h : f.Route a [] x) : x = a := by
  generalize hq : ([] : List String) = q at h
  cases h with
  | here => rfl
  | down => simp at hq

theorem of_snoc (h : f.Route a (q ++ [name]) x) :
    ∃ p, f.Route a q p ∧ f.parent? x = some p ∧ (f.node x).name = name := by
  generalize hr : q ++ [name] = r at h
  cases h with
  | here => simp at hr
  | down h hc =>
    obtain ⟨rfl, hn⟩ := List.append_inj' hr rfl
    exact ⟨_, h, hc, by simpa using hn.symm⟩

theorem of_cons (h : f.Route a (name :: r) x) : ∃ c, f.parent? c = some a ∧ (f.node c).name = name ∧ f.Route c r x := by
  induction r using List.reverseRecOn generalizing x with
  | nil =>
    obtain ⟨p, hp, hx, hn⟩ := of_snoc (q := []) h
    rw [eq_of_nil hp] at hx
    exact ⟨x, hx, hn, .here⟩
  | append_singleton r last ih =>
    obtain ⟨p, hp, hx, hn⟩ := of_snoc (q := name :: r) h
    obtain ⟨c, hc, hcn, hr⟩ := ih hp
    exact ⟨c, hc, hcn, hn ▸ .down hr hx⟩

theorem of_append (h : f.Route a (q ++ r) x) : ∃ b, f.Route a q b ∧ f.Route b r x := by
  induction r using List.reverseRecOn generalizing x with
  | nil => exact ⟨x, by simpa using h, .here⟩
  | append_singleton r last ih =>
    rw [← List.append_assoc] at h
    obtain ⟨p, hp, hx, hn⟩ := of_snoc h
    obtain ⟨b, hb, hr⟩ := ih hp
    exact ⟨b, hb, hn ▸ .down hr hx⟩

theorem rank_le {rank : Nat → Nat} (hrank : ∀ {c p : Nat}, f.parent? c = some p → rank p < rank c) (h : f.Route a q x) :
    rank a + q.length ≤ rank x := by
  induction h with
  | here => simp
  | down _ hc ih =>
    have := hrank hc
    simp
    omega

theorem length_le_child (h : ∀ q x, f.Route a q x → q.length ≤ d + 1) (hc : f.parent? c = some a) :
    ∀ q x, f.Route c q x → q.length ≤ d :=
  fun _ _ hq => Nat.le_of_succ_le_succ (h _ _ (cons hc hq))

theorem children_eq_nil (hf : f.Linked) (h : ∀ q x, f.Route a q x → q.length ≤ 0) : f.children a = [] :=
  List.eq_nil_iff_forall_not_mem.2 fun c hc => Nat.not_succ_le_zero 0 (h [_] c (single (hf.mem_children.1 hc)))

theorem lt_count (h : f.Route a q x) (ha : a < f.count) : x < f.count := by
  cases h with
  | here => exact ha
  | down _ hc => exact lt_count_of_parent? hc

theorem start_lt_count (hf : f.Linked) (h : f.Route a q x) (hq : q ≠ []) : a < f.count := by
  cases q with
  | nil => exact absurd rfl hq
  | cons name r =>
    obtain ⟨c, hc, -, -⟩ := h.of_cons
    exact hf.lt_count_parent hc

/-- What a walk up from the end of a route meets: a node of the route, or one above its start. -/
theorem below_or_above (h : f.Route a q x) (h' : f.Below b x) : f.Below a b ∨ f.Below b a := by
  induction h with
  | here => exact .inr h'
  | down h hc ih =>
    obtain ⟨r, h'⟩ := h'
    cases h' with
    | here => exact .inl ⟨_, .down h hc⟩
    | down h'' hc' =>
      rw [hc] at hc'
      cases hc'
      exact ih ⟨_, h''⟩

end Route

theorem Below.trans (h : f.Below a b) (h' : f.Below b x) : f.Below a x :=
  let ⟨_, h⟩ := h
  let ⟨_, h'⟩ := h'
  ⟨_, h.trans h'⟩

theorem Below.lt_count (h : f.Below a x) (ha : a < f.count) : x < f.count :=
  let ⟨_, h⟩ := h
  h.lt_count ha

theorem Below.start_lt_count (h : f.Below a x) (hf : f.Linked) (hx : x < f.count) : a < f.count := by
  obtain ⟨q, hq⟩ := h
  cases q with
  | nil => exact hq.eq_of_nil ▸ hx
  | cons name q => exact hq.start_lt_count hf (by simp)

theorem DistinctBelow.mono (h : f.DistinctBelow a) (hb : f.Below a b) : f.DistinctBelow b :=
  fun _ _ _ hp => h (hb.trans hp)

theorem Below.eq_of_top (h : f.Below a x) (hx : f.parent? x = none) : x = a := by
  obtain ⟨q, h⟩ := h
  cases h with
  | here => rfl
  | down _ hc => rw [hc] at hx; cases hx

theorem Below.exists_parent (h : f.Below a x) (hne : x ≠ a) : ∃ p, f.Below a p ∧ f.parent? x = some p := by
  obtain ⟨q, hq⟩ := h
  cases hq with
  | here => exact absurd rfl hne
  | down hp hx => exact ⟨_, ⟨_, hp⟩, hx⟩

theorem Below.top_unique (ha : f.parent? a = none) (hb : f.parent? b = none) (h : f.Below a x) (h' : f.Below b x) :
    a = b := by
  obtain ⟨q, h⟩ := h
  rcases h.below_or_above h' with hab | hba
  · exact (hab.eq_of_top hb).symm
  · exact hba.eq_of_top ha

namespace Linked

theorem exists_top (hf : f.Linked) (x : Nat) : ∃ a, f.parent? a = none ∧ f.Below a x := by
  obtain ⟨rank, hrank⟩ := hf.ranked
  induction hr : rank x using Nat.strongRecOn generalizing x with
  | ind n ih =>
    cases hp : f.parent? x with
    | none => exact ⟨x, hp, .refl⟩
    | some p =>
      obtain ⟨a, ha, hap⟩ := ih (rank p) (hr ▸ hrank hp) p rfl
      exact ⟨a, ha, hap.down hp⟩

theorem route_self (hf : f.Linked) (h : f.Route a q a) : q = [] := by
  obtain ⟨rank, hrank⟩ := hf.ranked
  have := h.rank_le hrank
  exact List.length_eq_zero_iff.1 (by omega)

theorem not_below_parent (hf : f.Linked) (hc : f.parent? c = some p) : ¬ f.Below c p := by
  rintro ⟨q, hq⟩
  exact absurd (hf.route_self (hq.cons hc)) (by simp)

/-- **There is one route at most.** -/
theorem route_unique (hf : f.Linked) (h : f.Route a q x) (h' : f.Route a r x) : q = r := by
  induction h generalizing r with
  | here => exact (hf.route_self h').symm
  | down h hc ih =>
    cases h' with
    | here => exact hf.route_self (.down h hc)
    | down h'' hc' =>
      rw [hc] at hc'
      cases hc'
      rw [ih h'']

theorem below_antisymm (hf : f.Linked) (h : f.Below a b) (h' : f.Below b a) : a = b := by
  obtain ⟨q, h⟩ := h
  obtain ⟨r, h'⟩ := h'
  have := List.append_eq_nil_iff.1 (hf.route_self (h.trans h'))
  rw [this.1] at h
  exact h.eq_of_nil.symm

theorem not_below_of_siblings (hf : f.Linked) (hc : f.parent? c = some p) (hd : f.parent? d = some p) (hne : c ≠ d)
    (h : f.Below c x) : ¬ f.Below d x := by
  have hside {c d : Nat} (hc : f.parent? c = some p) (hd : f.parent? d = some p) (hne : c ≠ d) : ¬ f.Below c d := by
    rintro ⟨r, hr⟩
    cases hr with
    | here => exact hne rfl
    | down hr hd' =>
      rw [hd] at hd'
      cases hd'
      exact hf.not_below_parent hc ⟨_, hr⟩
  intro h'
  obtain ⟨r, hr⟩ := h
  rcases hr.below_or_above h' with hcd | hdc
  · exact hside hc hd hne hcd
  · exact hside hd hc (Ne.symm hne) hdc

theorem mem_childNamed? (hf : f.Linked) (h : f.childNamed? p name = some c) :
    f.parent? c = some p ∧ (f.node c).name = name :=
  ⟨hf.mem_children.1 (List.mem_of_find?_eq_some h), by simpa using List.find?_some h⟩

theorem childNamed?_eq_none (hf : f.Linked) :
    f.childNamed? p name = none ↔ ∀ c, f.parent? c = some p → (f.node c).name ≠ name := by
  rw [childNamed?, List.find?_eq_none]
  simp only [beq_iff_eq]
  exact ⟨fun h c hc => h c (hf.mem_children.2 hc), fun h c hc => h c (hf.mem_children.1 hc)⟩

theorem childNamed?_eq_some (hf : f.Linked) (hd : f.DistinctBelow p) :
    f.childNamed? p name = some c ↔ f.parent? c = some p ∧ (f.node c).name = name := by
  refine ⟨hf.mem_childNamed?, fun ⟨hc, hn⟩ => ?_⟩
  cases h : f.childNamed? p name with
  | none => exact absurd hn (hf.childNamed?_eq_none.1 h c hc)
  | some d =>
    obtain ⟨hd', hdn⟩ := hf.mem_childNamed? h
    rw [hd .refl hd' hc (hdn.trans hn.symm)]

theorem route_of_descend? (hf : f.Linked) (h : f.descend? a q = some x) : f.Route a q x := by
  induction q generalizing a with
  | nil =>
    cases h
    exact .here
  | cons name r ih =>
    rw [descend?, Option.bind_eq_some_iff] at h
    obtain ⟨c, hc, hr⟩ := h
    obtain ⟨hp, rfl⟩ := hf.mem_childNamed? hc
    exact .cons hp (ih hr)

/-- **Names find nodes**: where siblings differ, going down by names is following a route. -/
theorem descend?_eq_some (hf : f.Linked) (hd : f.DistinctBelow a) : f.descend? a q = some x ↔ f.Route a q x := by
  refine ⟨hf.route_of_descend?, fun h => ?_⟩
  induction q generalizing a with
  | nil => rw [h.eq_of_nil]; rfl
  | cons name r ih =>
    obtain ⟨c, hc, hn, hr⟩ := h.of_cons
    rw [descend?, (hf.childNamed?_eq_some hd).2 ⟨hc, hn⟩]
    exact ih (hd.mono (.down .refl hc)) hr

theorem route_right_unique (hf : f.Linked) (hd : f.DistinctBelow a) (h : f.Route a q x) (h' : f.Route a q y) : x = y :=
  Option.some.inj (((hf.descend?_eq_some hd).2 h).symm.trans ((hf.descend?_eq_some hd).2 h'))

end Linked
end Forest
end SignalCatalog
