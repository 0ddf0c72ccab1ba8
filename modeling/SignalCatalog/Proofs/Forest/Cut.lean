import SignalCatalog.Proofs.Forest.Content
import SignalCatalog.Proofs.Forest.Subtree
/-!
# Cutting subtrees off

Nodes that are detached become tops of the forest: they and what is below them can no longer be reached from elsewhere,
and nothing else is different.
-/
namespace SignalCatalog
namespace Forest

variable {f g : Forest} {a c n p x y : Nat} {cs : List Nat} {q : List String} {name : String}

/-- **The second forest is the first with some nodes detached.** -/
structure Cut (cs : List Nat) (f g : Forest) : Prop where
  count : g.count = f.count
  parent? : ∀ x : Nat, g.parent? x = if x ∈ cs then none else f.parent? x
  mem_children : ∀ {p c : Nat}, c ∈ g.children p ↔ c ∈ f.children p ∧ c ∉ cs
  sublist : ∀ p : Nat, (g.children p).Sublist (f.children p)
  name : ∀ x : Nat, (g.node x).name = (f.node x).name
  content : ∀ x : Nat, (g.node x).content = (f.node x).content
  other : ∀ {x : Nat}, x ∉ cs → (∀ c ∈ cs, f.parent? c ≠ some x) → g.node x = f.node x

theorem node_detach_of_linked (hf : f.Linked) : (f.detach x).node y =
    { f.node y with
      parent := if y = x then none else f.parent? y
      children := (f.children y).filter (· != x) } := by
  have hkeep : ∀ {y : Nat}, f.parent? x ≠ some y → (f.children y).filter (· != x) = f.children y := fun {y} hy => by
    refine List.filter_eq_self.2 fun c hc => ?_
    rw [bne_iff_ne]
    rintro rfl
    exact hy (hf.mem_children.1 hc)
  cases h : f.parent? x with
  | none =>
    rw [detach_of_parent?_eq_none h, hkeep (by simp [h])]
    by_cases hyx : y = x
    · subst hyx
      rw [if_pos rfl, ← h]
      rfl
    · rw [if_neg hyx]
      rfl
  | some p =>
    rw [node_detach h (hf.lt_count_parent h)]
    by_cases hyp : y = p
    · rw [if_pos hyp]
    · rw [if_neg hyp, hkeep (by rw [h]; simpa using Ne.symm hyp)]

namespace Cut

theorem linked (hg : Cut cs f g) (hf : f.Linked) : g.Linked where
  mem_children := by
    intro p c
    rw [hg.mem_children, hg.parent?, hf.mem_children]
    by_cases hc : c ∈ cs <;> simp [hc]
  ranked := by
    obtain ⟨rank, hrank⟩ := hf.ranked
    refine ⟨rank, fun {c p} h => ?_⟩
    rw [hg.parent?] at h
    split at h
    · cases h
    · exact hrank h

theorem childrenNodup (hg : Cut cs f g) (hn : f.ChildrenNodup) : g.ChildrenNodup :=
  fun p => (hn p).sublist (hg.sublist p)

/-- **A route is left when nothing on it was cut off.** -/
theorem route_iff (hg : Cut cs f g) (hf : f.Linked) :
    g.Route a q x ↔ f.Route a q x ∧ ∀ c ∈ cs, c ≠ a → f.Below a c → ¬ f.Below c x := by
  constructor
  · intro h
    induction h with
    | here => exact ⟨.here, fun c _ hne hac hca => hne (hf.below_antisymm hca hac)⟩
    | down _ hc ih =>
      rw [hg.parent?] at hc
      split at hc
      · cases hc
      -- the last step is left, so its lower end was not cut off itself
      rename_i hcut
      rw [hg.name]
      refine ⟨.down ih.1 hc, fun c hm hne hac hcx => ?_⟩
      obtain ⟨r, hr⟩ := hcx
      cases hr with
      | here => exact hcut hm
      | down hr hc' =>
        rw [hc] at hc'
        cases hc'
        exact ih.2 c hm hne hac ⟨_, hr⟩
  · rintro ⟨h, hcut⟩
    induction h with
    | here => exact .here
    | down hp hc ih =>
      rename_i p x
      have hx : x ∉ cs := by
        intro hm
        refine hcut x hm ?_ ⟨_, .down hp hc⟩ .refl
        rintro rfl
        exact absurd (hf.route_self (.down hp hc)) (by simp)
      rw [← hg.name]
      exact .down (ih fun c hm hne hac hcp => hcut c hm hne hac (hcp.down hc)) (by rw [hg.parent?, if_neg hx, hc])

theorem route (hg : Cut cs f g) (hf : f.Linked) (h : g.Route a q x) : f.Route a q x := ((hg.route_iff hf).1 h).1

theorem below (hg : Cut cs f g) (hf : f.Linked) (h : g.Below a x) : f.Below a x :=
  let ⟨_, h⟩ := h
  ⟨_, hg.route hf h⟩

theorem distinct (hg : Cut cs f g) (hf : f.Linked) (hd : f.DistinctBelow a) : g.DistinctBelow a := by
  intro p c d hp hc hd' hcd
  have hback : ∀ {c : Nat}, g.parent? c = some p → f.parent? c = some p := fun {c} hc => by
    rw [hg.parent?] at hc
    split at hc
    · cases hc
    · exact hc
  rw [hg.name, hg.name] at hcd
  exact hd (hg.below hf hp) (hback hc) (hback hd') hcd

/-! ## Children of one node -/

variable (hcs : ∀ c ∈ cs, f.parent? c = some n)
include hcs

theorem route_parent_iff (hg : Cut cs f g) (hf : f.Linked) :
    g.Route n q x ↔ f.Route n q x ∧ ∀ c ∈ cs, ¬ f.Below c x := by
  rw [hg.route_iff hf]
  refine and_congr_right fun _ => forall₂_congr fun c hc => ⟨fun h => h ?_ (Below.refl.down (hcs c hc)), fun h _ _ => h⟩
  rintro rfl
  exact hf.not_below_parent (hcs c hc) .refl

theorem route_child_iff (hg : Cut cs f g) (hf : f.Linked) (hc : c ∈ cs) : g.Route c q x ↔ f.Route c q x := by
  rw [hg.route_iff hf, and_iff_left_iff_imp]
  intro _ e he hne hce
  exact absurd Below.refl (hf.not_below_of_siblings (hcs c hc) (hcs e he) (Ne.symm hne) hce)

theorem content?_child (hg : Cut cs f g) (hf : f.Linked) (hd : f.DistinctBelow c) (hc : c ∈ cs) :
    g.content? c = f.content? c := by
  refine funext fun q => Option.ext fun d => ?_
  rw [content?_eq_some (hg.linked hf) (hg.distinct hf hd), content?_eq_some hf hd]
  simp only [hg.route_child_iff hcs hf hc, hg.content]

theorem apart (hg : Cut cs f g) (hf : f.Linked) (hc : c ∈ cs) : g.Apart c n := fun x ⟨_, hx⟩ hx' => by
  have hcn : f.parent? c = some n := hcs c hc
  rcases hx.below_or_above hx' with h | h
  · exact hf.not_below_parent hcn (hg.below hf h)
  · have := h.eq_of_top (by rw [hg.parent?, if_pos hc])
    rw [this] at hcn
    exact hf.not_below_parent hcn .refl

end Cut

theorem contents?_eq_none_iff (hf : f.Linked) (hd : f.DistinctBelow n)
    (hcs : ∀ c ∈ cs, f.parent? c = some n) (h : f.Route n q x) :
    f.contents? cs q = none ↔ ∀ c ∈ cs, ¬ f.Below c x := by
  constructor
  · rintro hnone c hc ⟨r, hr⟩
    have hq := hf.route_unique h (hr.cons (hcs c hc))
    subst hq
    rw [contents?] at hnone
    cases hfind : cs.find? fun t => (f.node t).name == (f.node c).name with
    | none => exact absurd (List.find?_eq_none.1 hfind c hc) (by simp)
    | some e =>
      have he := List.mem_of_find?_eq_some hfind
      obtain rfl : e = c := hd .refl (hcs e he) (hcs c hc) (by simpa using List.find?_some hfind)
      rw [hfind, Option.bind_some, content?_of_route hf (hd.mono (Below.refl.down (hcs e hc))) hr] at hnone
      cases hnone
  · intro hcut
    cases q with
    | nil => rfl
    | cons name q =>
      rw [contents?, Option.bind_eq_none_iff]
      intro c hfind
      have hc := List.mem_of_find?_eq_some hfind
      have hname : (f.node c).name = name := by simpa using List.find?_some hfind
      subst hname
      rw [content?_eq_none hf (hd.mono (Below.refl.down (hcs c hc)))]
      intro y hy
      have := hf.route_right_unique hd h (hy.cons (hcs c hc))
      subst this
      exact hcut c hc ⟨_, hy⟩

/-- **What is left below the parent**: the places that no subtree cut off has. -/
theorem Cut.content?_parent (hg : Cut cs f g) (hf : f.Linked) (hd : f.DistinctBelow n)
    (hcs : ∀ c ∈ cs, f.parent? c = some n) :
    g.content? n = fun q => if f.contents? cs q = none then f.content? n q else none := by
  refine funext fun q => Option.ext fun d => ?_
  rw [content?_eq_some (hg.linked hf) (hg.distinct hf hd)]
  simp only [hg.route_parent_iff hcs hf, hg.content]
  split
  · rename_i hq
    rw [content?_eq_some hf hd]
    refine exists_congr fun x => and_congr_left fun _ => and_iff_left_of_imp fun hx => ?_
    exact (contents?_eq_none_iff hf hd hcs hx).1 hq
  · rename_i hq
    refine iff_of_false ?_ (by simp)
    rintro ⟨x, ⟨hx, hcut⟩, -⟩
    exact hq ((contents?_eq_none_iff hf hd hcs hx).2 hcut)

theorem cut_foldl_detach (hf : f.Linked) (cs : List Nat) : Cut cs f (cs.foldl detach f) := by
  induction cs using List.reverseRecOn with
  | nil => exact ⟨rfl, fun _ => rfl, by simp, fun _ => .refl _, fun _ => rfl, fun _ => rfl, fun _ _ => rfl⟩
  | append_singleton cs c ih =>
    rw [List.foldl_append]
    have hnode : ∀ y : Nat, ((cs.foldl detach f).detach c).node y = _ := fun y => node_detach_of_linked (ih.linked hf)
    refine ⟨by simp [ih.count], fun x => ?_, fun {p x} => ?_, fun p => ?_, fun x => ?_, fun x => ?_,
      fun {x} hx hcut => ?_⟩
    · rw [List.foldl_cons, List.foldl_nil, Forest.parent?, hnode, ih.parent?]
      by_cases hxc : x = c <;> simp [hxc]
    · rw [List.foldl_cons, List.foldl_nil, children, hnode]
      simp only [List.mem_filter, ih.mem_children, bne_iff_ne, List.mem_append, List.mem_singleton, not_or, and_assoc]
    · rw [List.foldl_cons, List.foldl_nil, children, hnode]
      exact List.filter_sublist.trans (ih.sublist p)
    · rw [List.foldl_cons, List.foldl_nil, hnode]
      exact ih.name x
    · rw [List.foldl_cons, List.foldl_nil, hnode]
      exact ih.content x
    · rw [List.mem_append, not_or, List.mem_singleton] at hx
      have hold := ih.other hx.1 fun e he => hcut e (List.mem_append_left _ he)
      have hfilter : ((cs.foldl detach f).children x).filter (· != c) = (cs.foldl detach f).children x := by
        refine List.filter_eq_self.2 fun e he => ?_
        rw [bne_iff_ne]
        rintro rfl
        exact hcut e (by simp) (hf.mem_children.1 (ih.mem_children.1 he).1)
      rw [List.foldl_cons, List.foldl_nil, hnode, if_neg hx.2, hfilter]
      exact hold

end Forest

namespace Tree

variable {t : Tree} {g : Forest} {cs : List Nat} {x : Nat}

theorem Rooted.cut (ht : t.Rooted) (hg : Forest.Cut cs t.toForest g) : (t.withForest g).Rooted where
  linked := hg.linked ht.linked
  root_top := by
    refine (hg.parent? t.root).trans ?_
    rw [ht.root_top]
    exact ite_self none
  root_lt_count := ht.root_lt_count.trans_eq hg.count.symm

theorem cut_prune (ht : t.Linked) : Forest.Cut t.marked t.toForest t.prune.1.toForest :=
  Forest.cut_foldl_detach ht t.marked

theorem Rooted.prune (ht : t.Rooted) : t.prune.1.Rooted := ht.cut (cut_prune ht.linked)

theorem mem_marked : x ∈ t.marked ↔ x ∈ t.preorder ∧ x ≠ t.root ∧ (t.node x).payload.common.delete = true := by
  rw [marked, List.mem_filter, Bool.and_eq_true, bne_iff_ne]

/-- **What is left** after pruning has no mark, nor has anything above it but the root. -/
theorem mem_preorder_prune (ht : t.Rooted) : x ∈ t.prune.1.preorder ↔ x ∈ t.preorder ∧
    ∀ c ∈ t.preorder, c ≠ t.root → t.Below c x → (t.node c).payload.common.delete = false := by
  have hbelow : t.prune.1.Below t.root x ↔ t.Below t.root x ∧ ∀ c ∈ t.marked, c ≠ t.root →
      t.Below t.root c → ¬ t.Below c x := by
    simp only [Forest.Below, (cut_prune ht.linked).route_iff ht.linked, exists_and_right]
  rw [mem_preorder ht.prune.linked, mem_preorder ht.linked]
  refine hbelow.trans (and_congr_right fun _ => ⟨fun h c hc hne hcx => ?_, fun h c hc hne _ hcx => ?_⟩)
  · rw [← Bool.not_eq_true]
    exact fun hdelete => h c (mem_marked.2 ⟨hc, hne, hdelete⟩) hne ((mem_preorder ht.linked).1 hc) hcx
  · obtain ⟨hc, -, hdelete⟩ := mem_marked.1 hc
    rw [h c hc hne hcx] at hdelete
    cases hdelete

end Tree
end SignalCatalog
