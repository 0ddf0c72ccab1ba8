import SignalCatalog.Proofs.Forest.Content
/-!
# Growth below a node

A forest grows below a node when new nodes come in below it, the nodes that were there keep name and parent, and all
else stays as it was.  Growth composes, and growth below a node is growth below everything above it.
-/
namespace SignalCatalog
namespace Forest

variable {f g h : Forest} {a b p x : Nat} {q r : List String}

/-- **The second forest has grown out of the first, below a node.** -/
structure Grown (a : Nat) (f g : Forest) : Prop where
  linked : g.Linked
  count_le : f.count ≤ g.count
  parent? : ∀ {x : Nat}, x < f.count → g.parent? x = f.parent? x
  name : ∀ {x : Nat}, x < f.count → (g.node x).name = (f.node x).name
  outside : ∀ {x : Nat}, x < f.count → ¬ f.Below a x → g.node x = f.node x
  fresh : ∀ {x : Nat}, f.count ≤ x → x < g.count → g.Below a x

namespace Grown

theorem refl (hf : f.Linked) : Grown a f f where
  linked := hf
  count_le := Nat.le_refl _
  parent? := fun _ => rfl
  name := fun _ => rfl
  outside := fun _ _ => rfl
  fresh := fun h h' => absurd h' (by omega)

theorem route (hg : Grown a f g) (h : f.Route b q x) : g.Route b q x := by
  induction h with
  | here => exact .here
  | down _ hc ih =>
    have hlt := lt_count_of_parent? hc
    rw [← hg.name hlt]
    exact .down ih (by rw [hg.parent? hlt, hc])

theorem below (hg : Grown a f g) (h : f.Below b x) : g.Below b x :=
  let ⟨_, h⟩ := h
  ⟨_, hg.route h⟩

/-- **No route to an old node is new.** -/
theorem route_back (hg : Grown a f g) (hf : f.Linked) (h : g.Route b q x) (hx : x < f.count) : f.Route b q x := by
  induction h with
  | here => exact .here
  | down _ hc ih =>
    rw [hg.parent? hx] at hc
    rw [hg.name hx]
    exact .down (ih (hf.lt_count_parent hc)) hc

theorem below_iff (hg : Grown a f g) (hf : f.Linked) (hx : x < f.count) : g.Below b x ↔ f.Below b x :=
  ⟨fun ⟨_, h⟩ => ⟨_, hg.route_back hf h hx⟩, hg.below⟩

theorem trans (hfg : Grown a f g) (hf : f.Linked) (hgh : Grown a g h) : Grown a f h where
  linked := hgh.linked
  count_le := Nat.le_trans hfg.count_le hgh.count_le
  parent? := fun hx => by rw [hgh.parent? (Nat.lt_of_lt_of_le hx hfg.count_le), hfg.parent? hx]
  name := fun hx => by rw [hgh.name (Nat.lt_of_lt_of_le hx hfg.count_le), hfg.name hx]
  outside := by
    intro _ hx hn
    rw [hgh.outside (Nat.lt_of_lt_of_le hx hfg.count_le) (fun hb => hn ((hfg.below_iff hf hx).1 hb)), hfg.outside hx hn]
  fresh := fun {x} hx hx' => by
    by_cases hxg : x < g.count
    · exact hgh.below (hfg.fresh hx hxg)
    · exact hgh.fresh (by omega) hx'

/-- **Growth below a node is growth below everything above it.** -/
theorem mono (hg : Grown p f g) (hp : f.Below a p) : Grown a f g where
  linked := hg.linked
  count_le := hg.count_le
  parent? := hg.parent?
  name := hg.name
  outside := fun hx hn => hg.outside hx fun h => hn (hp.trans h)
  fresh := fun hx hx' => (hg.below hp).trans (hg.fresh hx hx')

theorem distinct (hg : Grown p f g) (hf : f.Linked) (hd : f.DistinctBelow a) (hgp : g.DistinctBelow p) :
    g.DistinctBelow a := by
  intro x c d hx hc hd' hcd
  by_cases hpx : g.Below p x
  · exact hgp hpx hc hd' hcd
  · -- a node that the growth left alone has its old children only
    have hxf : x < f.count := by
      by_contra hxf
      exact hpx (hg.fresh (by omega) (hg.linked.lt_count_parent hc))
    have hold : ∀ {c : Nat}, g.parent? c = some x → c < f.count ∧ f.parent? c = some x := fun {c} hc => by
      have hmem := hg.linked.mem_children.2 hc
      rw [children, hg.outside hxf (fun h => hpx (hg.below h))] at hmem
      have hc := hf.mem_children.1 hmem
      exact ⟨lt_count_of_parent? hc, hc⟩
    obtain ⟨hcf, hc⟩ := hold hc
    obtain ⟨hdf, hd'⟩ := hold hd'
    rw [hg.name hcf, hg.name hdf] at hcd
    exact hd ((hg.below_iff hf hxf).1 hx) hc hd' hcd

theorem route_back_of_apart (hg : Grown a f g) (hf : f.Linked) (hb : b < f.count)
    (hab : f.Apart b a) (h : g.Route b q x) :
    f.Route b q x := by
  induction h with
  | here => exact .here
  | down _ hc ih =>
    have hmem := hg.linked.mem_children.2 hc
    rw [children, hg.outside (ih.lt_count hb) (hab ⟨_, ih⟩)] at hmem
    have hc := hf.mem_children.1 hmem
    rw [hg.name (lt_count_of_parent? hc)]
    exact .down ih hc

theorem apart (hg : Grown a f g) (hf : f.Linked) (hb : b < f.count) (hab : f.Apart b a) :
    g.Apart b a := fun _ ⟨_, hx⟩ h => by
  have hx := hg.route_back_of_apart hf hb hab hx
  exact hab ⟨_, hx⟩ ((hg.below_iff hf (hx.lt_count hb)).1 h)

theorem distinct_of_apart (hg : Grown a f g) (hf : f.Linked) (hb : b < f.count) (hab : f.Apart b a)
    (hd : f.DistinctBelow b) :
    g.DistinctBelow b := fun p c d ⟨q, hp⟩ hc hd' hcd => by
  have hback : ∀ {c : Nat}, g.parent? c = some p → c < f.count ∧ f.parent? c = some p := fun {c} hc => by
    have hcr := hg.route_back_of_apart hf hb hab (.down hp hc)
    have hlt := hcr.lt_count hb
    exact ⟨hlt, by rw [← hg.parent? hlt, hc]⟩
  obtain ⟨hcl, hc⟩ := hback hc
  obtain ⟨hdl, hd'⟩ := hback hd'
  rw [hg.name hcl, hg.name hdl] at hcd
  exact hd ⟨q, hg.route_back_of_apart hf hb hab hp⟩ hc hd' hcd

theorem content?_of_apart (hg : Grown a f g) (hf : f.Linked) (hb : b < f.count) (hab : f.Apart b a)
    (hd : f.DistinctBelow b) :
    g.content? b = f.content? b := by
  have hnode : ∀ {x : Nat}, f.Below b x → g.node x = f.node x := fun hx => hg.outside (hx.lt_count hb) (hab hx)
  refine funext fun q => Option.ext fun c => ?_
  rw [content?_eq_some hg.linked (hg.distinct_of_apart hf hb hab hd), content?_eq_some hf hd]
  constructor
  · rintro ⟨x, hx, rfl⟩
    have hx := hg.route_back_of_apart hf hb hab hx
    exact ⟨x, hx, by rw [hnode ⟨_, hx⟩]⟩
  · rintro ⟨x, hx, rfl⟩
    exact ⟨x, hg.route hx, by rw [hnode ⟨_, hx⟩]⟩

end Grown

/-! ## Changing a node in place -/

/-- **The forests differ at one node, and not in names, parents or whose children are whose.** -/
structure SameShape (a : Nat) (f g : Forest) : Prop where
  count : g.count = f.count
  parent? : ∀ x : Nat, g.parent? x = f.parent? x
  name : ∀ x : Nat, (g.node x).name = (f.node x).name
  mem_children : ∀ {p c : Nat}, c ∈ g.children p ↔ c ∈ f.children p
  other : ∀ {x : Nat}, x ≠ a → g.node x = f.node x

namespace SameShape

theorem route_iff (hs : SameShape a f g) : g.Route b q x ↔ f.Route b q x := by
  constructor
  all_goals
    intro h
    induction h with
    | here => exact .here
    | down _ hc ih => ?_
  · rw [hs.parent?] at hc
    rw [hs.name]
    exact .down ih hc
  · rw [← hs.parent?] at hc
    rw [← hs.name]
    exact .down ih hc

theorem below_iff (hs : SameShape a f g) : g.Below b x ↔ f.Below b x := exists_congr fun _ => hs.route_iff

theorem linked (hs : SameShape a f g) (hf : f.Linked) : g.Linked where
  mem_children := by
    intro p c
    rw [hs.mem_children, hf.mem_children, hs.parent?]
  ranked := by
    obtain ⟨rank, hrank⟩ := hf.ranked
    exact ⟨rank, fun h => hrank (by rwa [hs.parent?] at h)⟩

theorem distinct (hs : SameShape a f g) (hd : f.DistinctBelow b) : g.DistinctBelow b := by
  intro p c d hp hc hd' hcd
  rw [hs.parent?] at hc hd'
  rw [hs.name, hs.name] at hcd
  exact hd (hs.below_iff.1 hp) hc hd' hcd

theorem grown (hs : SameShape a f g) (hf : f.Linked) : Grown a f g where
  linked := hs.linked hf
  count_le := Nat.le_of_eq hs.count.symm
  parent? := fun _ => hs.parent? _
  name := fun _ => hs.name _
  outside := fun _ hn => hs.other (by rintro rfl; exact hn .refl)
  fresh := fun hx hx' => absurd hx' (by rw [hs.count]; omega)

theorem content?_cons (hs : SameShape a f g) (hf : f.Linked) (hd : f.DistinctBelow a) (name : String) :
    g.content? a (name :: q) = f.content? a (name :: q) := by
  refine Option.ext fun c => ?_
  rw [content?_eq_some (hs.linked hf) (hs.distinct hd), content?_eq_some hf hd]
  simp only [hs.route_iff]
  refine exists_congr fun x => and_congr_right fun hx => ?_
  rw [hs.other (by rintro rfl; exact absurd (hf.route_self hx) (by simp))]

end SameShape

theorem sameShape_modify {k : Node → Node} (hname : ∀ n, (k n).name = n.name) (hparent : ∀ n, (k n).parent = n.parent)
    (hchildren : ∀ n c, c ∈ (k n).children ↔ c ∈ n.children) : SameShape a f (f.modify a k) where
  count := count_modify k
  parent? := fun _ => field_modify Node.parent hparent
  name := fun _ => field_modify Node.name hname
  mem_children := by
    intro p c
    rw [children, node_modify]
    split
    · exact hchildren _ c
    · rfl
  other := fun hx => node_modify_ne _ hx

theorem sameShape_declare (pl : Payload) : SameShape a f (f.modify a fun n => n.declare pl) :=
  sameShape_modify (fun _ => rfl) (fun _ => rfl) (fun _ _ => Iff.rfl)

theorem sameShape_reorder (first : List Nat) : SameShape p f (f.reorder p first) := by
  refine sameShape_modify (fun _ => rfl) (fun _ => rfl) (fun n c => ?_)
  by_cases hc : c ∈ first <;> simp [hc]

end Forest
end SignalCatalog
