import Mathlib.Data.List.Flatten
import SignalCatalog.Proofs.Forest.Route
/-!
# Subtrees and lineages

The enumerations of a forest against its routes: the pre-order of a subtree holds exactly the nodes below its top, each
once where no child is listed twice, and the lineage of a node spells its route from the topmost ancestor.
-/
namespace SignalCatalog
namespace Forest

variable {f : Forest} {a x : Nat} {q : List String}

/-- **No node lists a child twice.** -/
def ChildrenNodup (f : Forest) : Prop := ∀ p : Nat, (f.children p).Nodup

theorem childrenNodup_modify {k : Node → Node} (hn : f.ChildrenNodup)
    (hk : ∀ n : Node, n.children.Nodup → (k n).children.Nodup) :
    (f.modify a k).ChildrenNodup := by
  intro p
  rw [children, node_modify]
  split
  · exact hk _ (hn p)
  · exact hn p

theorem childrenNodup_reorder {first : List Nat} (hn : f.ChildrenNodup) (hfirst : first.Nodup) :
    (f.reorder a first).ChildrenNodup := by
  refine childrenNodup_modify hn fun n hchildren => ?_
  refine List.nodup_append.2 ⟨hfirst.filter _, hchildren.filter _, fun c hc d hd => ?_⟩
  rintro rfl
  simp only [List.mem_filter, Bool.not_eq_true', List.contains_eq_mem, decide_eq_false_iff_not] at hc hd
  exact hd.2 hc.1

namespace Linked

/-- **A route is no longer than there are nodes**: ranks grow along it, so it passes none twice. -/
theorem length_le_count (hf : f.Linked) (h : f.Route a q x) : q.length ≤ f.count := by
  obtain ⟨rank, hrank⟩ := hf.ranked
  have hpassed : ∃ l : List Nat, l.length = q.length ∧ l.Nodup ∧ ∀ y ∈ l, y < f.count ∧ rank y ≤ rank x := by
    induction h with
    | here => exact ⟨[], rfl, List.nodup_nil, by simp⟩
    | down _ hc ih =>
      rename_i c _
      obtain ⟨l, hlen, hnd, hl⟩ := ih
      have hup := hrank hc
      refine ⟨c :: l, by simp [hlen], List.nodup_cons.2 ⟨fun hm => ?_, hnd⟩, fun y hy => ?_⟩
      · have := (hl c hm).2
        omega
      · rcases List.mem_cons.1 hy with rfl | hy
        · exact ⟨lt_count_of_parent? hc, Nat.le_refl _⟩
        · have := hl y hy
          exact ⟨this.1, by omega⟩
  obtain ⟨l, hlen, hnd, hl⟩ := hpassed
  have := hnd.length_le_of_subset (show l ⊆ List.range f.count from fun y hy => List.mem_range.2 (hl y hy).1)
  rw [List.length_range] at this
  omega

theorem mem_subtreeWithin (hf : f.Linked) (d : Nat) : x ∈ f.subtreeWithin d a ↔ ∃ q, f.Route a q x ∧ q.length ≤ d := by
  induction d generalizing a with
  | zero =>
    rw [subtreeWithin, List.mem_singleton]
    constructor
    · rintro rfl
      exact ⟨[], .here, Nat.le_refl 0⟩
    · rintro ⟨q, hq, hlen⟩
      rw [List.length_eq_zero_iff.1 (Nat.le_zero.1 hlen)] at hq
      exact hq.eq_of_nil
  | succ d ih =>
    rw [subtreeWithin, List.mem_cons, List.mem_flatMap]
    constructor
    · rintro (rfl | ⟨c, hc, hx⟩)
      · exact ⟨[], .here, Nat.zero_le _⟩
      · obtain ⟨q, hq, hlen⟩ := ih.1 hx
        exact ⟨_, .cons (hf.mem_children.1 hc) hq, by simpa using hlen⟩
    · rintro ⟨q, hq, hlen⟩
      cases q with
      | nil => exact .inl hq.eq_of_nil
      | cons name r =>
        obtain ⟨c, hc, -, hr⟩ := hq.of_cons
        exact .inr ⟨c, hf.mem_children.2 hc, ih.2 ⟨r, hr, by simpa using hlen⟩⟩

/-- **The subtree holds the nodes below its top.** -/
theorem mem_subtree (hf : f.Linked) : x ∈ f.subtree a ↔ f.Below a x := by
  rw [subtree, hf.mem_subtreeWithin]
  exact ⟨fun ⟨q, hq, _⟩ => ⟨q, hq⟩, fun ⟨q, hq⟩ => ⟨q, hq, hf.length_le_count hq⟩⟩

theorem pairwise_subtreeWithin (hf : f.Linked) (hn : f.ChildrenNodup) (d : Nat) :
    (f.subtreeWithin d a).Pairwise fun x y => ¬ f.Below y x := by
  induction d generalizing a with
  | zero => exact List.pairwise_singleton _ a
  | succ d ih =>
    rw [subtreeWithin, List.pairwise_cons, List.pairwise_flatMap]
    refine ⟨fun y hy hya => ?_, fun c _ => ih, ?_⟩
    · obtain ⟨c, hc, hy⟩ := List.mem_flatMap.1 hy
      obtain ⟨q, hq, -⟩ := (hf.mem_subtreeWithin d).1 hy
      exact hf.not_below_parent (hf.mem_children.1 hc) (Below.trans ⟨_, hq⟩ hya)
    · refine List.Pairwise.imp_of_mem (fun {c e} hc he hne x hx y hy hyx => ?_) (hn a)
      obtain ⟨q, hq, -⟩ := (hf.mem_subtreeWithin d).1 hx
      obtain ⟨r, hr, -⟩ := (hf.mem_subtreeWithin d).1 hy
      exact hf.not_below_of_siblings (hf.mem_children.1 hc) (hf.mem_children.1 he) hne ⟨q, hq⟩ (Below.trans ⟨r, hr⟩ hyx)

theorem pairwise_subtree (hf : f.Linked) (hn : f.ChildrenNodup) : (f.subtree a).Pairwise fun x y => ¬ f.Below y x :=
  hf.pairwise_subtreeWithin hn _

theorem nodup_subtree (hf : f.Linked) (hn : f.ChildrenNodup) : (f.subtree a).Nodup := by
  refine (hf.pairwise_subtree hn).imp fun h => ?_
  rintro rfl
  exact h .refl

/-- **All that is above a node comes before it**, from the top of the subtree on. -/
theorem mem_before_of_below (hf : f.Linked) (hn : f.ChildrenNodup) {p : Nat} {before after : List Nat}
    (hsplit : f.subtree a = before ++ x :: after) (hp : f.Below a p) (hbelow : f.Below p x) (hne : p ≠ x) :
    p ∈ before := by
  have hmem : p ∈ f.subtree a := hf.mem_subtree.2 hp
  have hpair := hf.pairwise_subtree hn (a := a)
  rw [hsplit, List.mem_append, List.mem_cons] at hmem
  rw [hsplit, List.pairwise_append, List.pairwise_cons] at hpair
  rcases hmem with hbefore | hself | hafter
  · exact hbefore
  · exact absurd hself hne
  · exact absurd hbelow (hpair.2.1.1 p hafter)

theorem subtreeWithin_succ (hf : f.Linked) {d : Nat} (h : ∀ q x, f.Route a q x → q.length ≤ d) :
    f.subtreeWithin (d + 1) a = f.subtreeWithin d a := by
  induction d generalizing a with
  | zero =>
    change a :: (f.children a).flatMap _ = [a]
    rw [Route.children_eq_nil hf h]
    rfl
  | succ d ih =>
    rw [subtreeWithin, subtreeWithin]
    exact congrArg (a :: ·) (List.flatMap_congr fun c hc => ih (Route.length_le_child h (hf.mem_children.1 hc)))

theorem subtreeWithin_of_count_le (hf : f.Linked) {d : Nat} (h : f.count ≤ d) : f.subtreeWithin d a = f.subtree a := by
  induction h with
  | refl => rfl
  | step hd ih => rw [hf.subtreeWithin_succ fun q x hq => Nat.le_trans (hf.length_le_count hq) hd, ih]

/-- **A subtree is its top and the subtrees of the children.** -/
theorem subtree_eq (hf : f.Linked) : f.subtree a = a :: (f.children a).flatMap f.subtree :=
  (hf.subtreeWithin_of_count_le (Nat.le_succ f.count)).symm

theorem children_sublist_subtreeWithin (hf : f.Linked) {d : Nat} (h : f.Route a q x) (hd : q.length < d) :
    (f.children x).Sublist (f.subtreeWithin d a) := by
  induction d generalizing a q with
  | zero => exact absurd hd (Nat.not_lt_zero _)
  | succ d ih =>
    rw [subtreeWithin]
    refine List.Sublist.cons _ ?_
    cases q with
    | nil =>
      -- each child begins its own subtree
      have hfirst : ∀ c ∈ f.children a, [c].Sublist (f.subtreeWithin d c) := fun c _ => by
        cases d <;> exact List.Sublist.cons_cons _ (List.nil_sublist _)
      rw [h.eq_of_nil]
      simpa using List.Sublist.flatMap_right (f.children a) hfirst
    | cons name q =>
      obtain ⟨c, hc, -, hq⟩ := h.of_cons
      refine (ih hq (by simpa using hd)).trans ?_
      rw [List.flatMap_def]
      exact List.sublist_flatten_of_mem (List.mem_map_of_mem (hf.mem_children.2 hc))

theorem children_sublist_subtree (hf : f.Linked) (h : f.Below a x) : (f.children x).Sublist (f.subtree a) := by
  obtain ⟨q, hq⟩ := h
  cases hc : f.children x with
  | nil => exact List.nil_sublist _
  | cons c cs =>
    rw [← hc]
    have hparent : f.parent? c = some x := hf.mem_children.1 (hc ▸ List.mem_cons_self)
    refine hf.children_sublist_subtreeWithin hq ?_
    have := hf.length_le_count (hq.down hparent)
    simp only [List.length_append, List.length_singleton] at this
    omega

end Linked

theorem subtreeWithin_congr {g : Forest} (h : ∀ x, g.children x = f.children x) (d : Nat) (a : Nat) :
    g.subtreeWithin d a = f.subtreeWithin d a := by
  induction d generalizing a with
  | zero => rfl
  | succ d ih => rw [subtreeWithin, subtreeWithin, h, funext ih]

theorem subtreeWithin_map {g : Forest} {φ : Nat → Nat} (hf : f.Linked)
    (h : ∀ x, f.Below a x → g.children (φ x) = (f.children x).map φ) (d : Nat) :
    g.subtreeWithin d (φ a) = (f.subtreeWithin d a).map φ := by
  induction d generalizing a with
  | zero => rfl
  | succ d ih =>
    rw [subtreeWithin, subtreeWithin, h a .refl, List.map_cons, List.map_flatMap, List.flatMap_map]
    refine congrArg (φ a :: ·) (List.flatMap_congr fun c hc => ?_)
    exact ih fun x hx => h x ((Below.down .refl (hf.mem_children.1 hc)).trans hx)

theorem Linked.congr {g : Forest} (hf : f.Linked) (hchildren : ∀ x, g.children x = f.children x)
    (hparent : ∀ x, g.parent? x = f.parent? x) :
    g.Linked where
  mem_children := by simp only [hchildren, hparent, hf.mem_children, implies_true]
  ranked := by simpa only [hparent] using hf.ranked

/-! ## Upwards -/

theorem below_of_mem_lineageWithin (b : Nat) {y : Nat} (h : y ∈ f.lineageWithin b x) : f.Below y x := by
  induction b generalizing x with
  | zero => rw [List.mem_singleton.1 h]; exact .refl
  | succ b ih =>
    rw [lineageWithin] at h
    split at h
    · rename_i p hp
      rcases List.mem_cons.1 h with rfl | h
      · exact .refl
      · exact (ih h).down hp
    · rw [List.mem_singleton.1 h]; exact .refl

theorem lineageWithin_ne_nil (b : Nat) : f.lineageWithin b x ≠ [] := by
  cases b with
  | zero => simp [lineageWithin]
  | succ b => rw [lineageWithin]; split <;> simp

/-- Going up from the end of a route, the lineage passes the route and ends at its start, if that is a top. -/
theorem lineageWithin_of_route (ha : f.parent? a = none) (b : Nat) (h : f.Route a q x) (hb : q.length ≤ b) :
    (f.lineageWithin b x).getLast? = some a ∧
      ((f.lineageWithin b x).map fun i => (f.node i).name).reverse = (f.node a).name :: q := by
  induction b generalizing q x with
  | zero =>
    rw [List.length_eq_zero_iff.1 (Nat.le_zero.1 hb)] at h
    rw [h.eq_of_nil, List.length_eq_zero_iff.1 (Nat.le_zero.1 hb)]
    exact ⟨rfl, rfl⟩
  | succ b ih =>
    cases h with
    | here => simp [lineageWithin, ha]
    | down h hc =>
      obtain ⟨hlast, hnames⟩ := ih h (by simpa using hb)
      rw [lineageWithin, hc]
      refine ⟨?_, by rw [List.map_cons, List.reverse_cons, hnames, List.cons_append]⟩
      rw [List.getLast?_cons, hlast]
      rfl

theorem top_eq_of_route (hf : f.Linked) (ha : f.parent? a = none) (h : f.Route a q x) : f.top x = a := by
  rw [top, lineage, (lineageWithin_of_route ha f.count h (hf.length_le_count h)).1]
  rfl

theorem below_top : f.Below (f.top x) x := by
  rw [top, lineage, List.getLast?_eq_getLast_of_ne_nil (lineageWithin_ne_nil _)]
  exact below_of_mem_lineageWithin _ (List.getLast_mem (lineageWithin_ne_nil _))

/-- **The names on the way down to a node** are the top's and those of the route. -/
theorem pathNames_of_route (hf : f.Linked) (ha : f.parent? a = none) (h : f.Route a q x) :
    f.pathNames x = (f.node a).name :: q :=
  (lineageWithin_of_route ha f.count h (hf.length_le_count h)).2

theorem fqn_of_route (hf : f.Linked) (ha : f.parent? a = none) (h : f.Route a q x) :
    f.fqn x = QualifiedName.ofSegments ((f.node a).name :: q) := by
  rw [fqn, pathNames_of_route hf ha h]

end Forest

namespace Tree

variable {t : Tree} {x : Nat}

/-- Links agree, and the root is a top of the forest. -/
structure Rooted (t : Tree) : Prop where
  linked : t.Linked
  root_top : t.parent? t.root = none
  root_lt_count : t.root < t.count

/-- **A rooted tree that lists no child twice.** -/
structure WellFormed (t : Tree) : Prop extends Rooted t where
  children_nodup : t.ChildrenNodup

/-- **Siblings in the tree differ by name.** -/
def SiblingsDiffer (t : Tree) : Prop := t.DistinctBelow t.root

theorem mem_preorder (ht : t.Linked) : x ∈ t.preorder ↔ t.Below t.root x := ht.mem_subtree

theorem Rooted.lt_count (ht : t.Rooted) (hx : x ∈ t.preorder) : x < t.count :=
  ((mem_preorder ht.linked).1 hx).lt_count ht.root_lt_count

theorem WellFormed.nodup_preorder (ht : t.WellFormed) : t.preorder.Nodup := ht.linked.nodup_subtree ht.children_nodup

/-- **A node is attached when the pre-order has it.** -/
theorem isAttached_iff (ht : t.Linked) (hroot : t.parent? t.root = none) :
    t.isAttached x = true ↔ t.Below t.root x := by
  rw [isAttached, beq_iff_eq]
  constructor
  · intro h
    rw [← h]
    exact Forest.below_top
  · rintro ⟨q, hq⟩
    exact Forest.top_eq_of_route ht hroot hq

end Tree
end SignalCatalog
