import SignalCatalog.Proofs.Forest.Cut
import SignalCatalog.Proofs.Forest.Growth
/-!
# Cut and grown again

What a change of one branch may do to a forest: some children of the branch are cut off, and then new nodes come in
below it.  Nothing outside the branch is touched, and no old node comes to stand elsewhere.
-/
namespace SignalCatalog
namespace Forest

variable {f g : Forest} {a n x : Nat} {cs : List Nat} {q : List String}

/-- **The second forest is the first with some children of a node cut off and new nodes below it.** -/
structure Regrown (cs : List Nat) (n : Nat) (f g : Forest) : Prop where
  child : ∀ c ∈ cs, f.parent? c = some n
  through : ∃ m, Cut cs f m ∧ Grown n m g

namespace Regrown

theorem linked (h : Regrown cs n f g) : g.Linked :=
  let ⟨_, _, hg⟩ := h.through
  hg.linked

theorem count_le (h : Regrown cs n f g) : f.count ≤ g.count := by
  obtain ⟨m, hm, hg⟩ := h.through
  rw [← hm.count]
  exact hg.count_le

theorem parent? (h : Regrown cs n f g) (hx : x < f.count) : g.parent? x = if x ∈ cs then none else f.parent? x := by
  obtain ⟨m, hm, hg⟩ := h.through
  rw [hg.parent? (by rwa [hm.count]), hm.parent?]

theorem name (h : Regrown cs n f g) (hx : x < f.count) : (g.node x).name = (f.node x).name := by
  obtain ⟨m, hm, hg⟩ := h.through
  rw [hg.name (by rwa [hm.count]), hm.name]

theorem route_back (h : Regrown cs n f g) (hf : f.Linked) (hx : x < f.count) (hr : g.Route a q x) : f.Route a q x := by
  obtain ⟨m, hm, hg⟩ := h.through
  exact hm.route hf (hg.route_back (hm.linked hf) hr (by rwa [hm.count]))

theorem route (h : Regrown cs n f g) (hf : f.Linked) (hr : f.Route a q x) (hcut : ∀ c ∈ cs, ¬ f.Below c x) :
    g.Route a q x := by
  obtain ⟨m, hm, hg⟩ := h.through
  exact hg.route ((hm.route_iff hf).2 ⟨hr, fun c hc _ _ => hcut c hc⟩)

theorem not_below_of_cut (h : Regrown cs n f g) (hf : f.Linked) (ha : f.Below a n)
    (hx : x < f.count) (hr : g.Below a x) :
    ∀ c ∈ cs, ¬ f.Below c x := by
  intro c hc
  obtain ⟨m, hm, hg⟩ := h.through
  obtain ⟨q, hr⟩ := hr
  have hr' := hg.route_back (hm.linked hf) hr (by rwa [hm.count])
  have hparent := h.child c hc
  refine ((hm.route_iff hf).1 hr').2 c hc ?_ (ha.down hparent)
  rintro rfl
  exact hf.not_below_parent hparent ha

theorem below_branch (h : Regrown cs n f g) (hf : f.Linked) (ha : f.Below a n) : g.Below a n := by
  obtain ⟨q, hq⟩ := ha
  refine ⟨q, h.route hf hq fun c hc hcn => ?_⟩
  exact hf.not_below_parent (h.child c hc) hcn

theorem outside (h : Regrown cs n f g) (hf : f.Linked) (hx : x < f.count) (hn : ¬ f.Below n x) :
    g.node x = f.node x := by
  obtain ⟨m, hm, hg⟩ := h.through
  rw [hg.outside (by rwa [hm.count]) fun hb => hn (hm.below hf hb)]
  refine hm.other (fun hc => hn (Below.refl.down (h.child x hc))) fun c hc hp => ?_
  rw [h.child c hc] at hp
  cases hp
  exact hn .refl

theorem fresh (h : Regrown cs n f g) (hx : f.count ≤ x) (hx' : x < g.count) : g.Below n x := by
  obtain ⟨m, hm, hg⟩ := h.through
  exact hg.fresh (by rwa [hm.count]) hx'

theorem below_of_route (h : Regrown cs n f g) (hf : f.Linked) (ha : f.Below a n) (hx : f.Below n x) (hr : g.Route a q x)
    (hlt : x < f.count) : g.Below n x := by
  induction hr with
  | here =>
    rw [hf.below_antisymm hx ha]
    exact .refl
  | down hp hc ih =>
    have hold := h.parent? hlt
    rw [hc] at hold
    split at hold
    · cases hold
    obtain ⟨r, hr⟩ := hx
    cases hr with
    | here => exact .refl
    | down hr hc' =>
      rw [hc'] at hold
      cases hold
      exact (ih ⟨_, hr⟩ (hf.lt_count_parent hc')).down hc

end Regrown
end Forest

theorem Tree.Rooted.grown {t u : Tree} {a : Nat} (ht : t.Rooted) (hg : Forest.Grown a t.toForest u.toForest)
    (hroot : u.root = t.root) :
    u.Rooted where
  linked := hg.linked
  root_top := by rw [hroot, hg.parent? ht.root_lt_count, ht.root_top]
  root_lt_count := hroot ▸ Nat.lt_of_lt_of_le ht.root_lt_count hg.count_le

end SignalCatalog
