import SignalCatalog.Proofs.Forest.Growth
/-!
# Filling places

A growth that puts a layer on the contents below a node and keeps siblings different.  What is put below a node is put,
for every node above it, at the path that leads there.
-/
namespace SignalCatalog
namespace Forest

variable {f g h : Forest} {a p x : Nat} {q r : List String} {o o' : Layer}

/-- **The second forest has grown out of the first by a layer below a node.** -/
structure Filled (p : Nat) (o : Layer) (f g : Forest) : Prop extends Grown p f g where
  distinct : g.DistinctBelow p
  content : g.content? p = (f.content? p).fill o

namespace Filled

theorem refl (hf : f.Linked) (hd : f.DistinctBelow p) : Filled p (fun _ => none) f f where
  toGrown := .refl hf
  distinct := hd
  content := rfl

theorem trans (hfg : Filled p o f g) (hf : f.Linked) (hgh : Filled p o' g h) (hoo : ∀ q, o q = none ∨ o' q = none) :
    Filled p (fun q => (o q).or (o' q)) f h where
  toGrown := hfg.toGrown.trans hf hgh.toGrown
  distinct := hgh.distinct
  content := by rw [hgh.content, hfg.content, Layer.fill_fill hoo]

theorem of_eq (hfg : Filled p o f g) (ho : o = o') : Filled p o' f g := ho ▸ hfg

theorem content?_of_not_below (hg : Filled p o f g) (hf : f.Linked) (hd : f.DistinctBelow a) (hp : f.Route a r p)
    (hq : ¬ r <+: q) : g.content? a q = f.content? a q := by
  have hgd := hg.toGrown.distinct hf hd hg.distinct
  have ha : a < f.count := hp.start_lt_count hf (by rintro rfl; exact hq List.nil_prefix)
  refine Option.ext fun c => ?_
  rw [content?_eq_some hg.linked hgd, content?_eq_some hf hd]
  constructor
  · rintro ⟨x, hx, rfl⟩
    have hxp : ¬ g.Below p x := fun ⟨s, hs⟩ => hq ⟨s, hg.linked.route_unique ((hg.route hp).trans hs) hx⟩
    have hxf : x < f.count := by
      by_contra hxf
      exact hxp (hg.fresh (by omega) (hx.lt_count (Nat.lt_of_lt_of_le ha hg.count_le)))
    exact ⟨x, hg.route_back hf hx hxf, by rw [hg.outside hxf fun h => hxp (hg.below h)]⟩
  · rintro ⟨x, hx, rfl⟩
    have hxp : ¬ f.Below p x := fun ⟨s, hs⟩ => hq ⟨s, hf.route_unique (hp.trans hs) hx⟩
    exact ⟨x, hg.route hx, by rw [hg.outside (hx.lt_count ha) hxp]⟩

/-- **What is put below a node is put, for every node above it, at the path that leads there.** -/
theorem lift (hg : Filled p o f g) (hf : f.Linked) (hd : f.DistinctBelow a) (hp : f.Route a r p) :
    Filled a (o.shift r) f g where
  toGrown := hg.toGrown.mono ⟨r, hp⟩
  distinct := hg.toGrown.distinct hf hd hg.distinct
  content := by
    have hgd := hg.toGrown.distinct hf hd hg.distinct
    funext q
    by_cases hq : r <+: q
    · obtain ⟨s, rfl⟩ := hq
      rw [content?_append hg.linked hgd (hg.route hp), hg.content]
      cases hs : o s with
      | none =>
        rw [Layer.fill_of_none hs, Layer.fill_of_none (by rw [Layer.shift_append, hs]), content?_append hf hd hp]
      | some c =>
        rw [Layer.fill_of_some hs, Layer.fill_of_some (by rw [Layer.shift_append, hs]), content?_append hf hd hp]
    · rw [hg.content?_of_not_below hf hd hp hq, Layer.fill_of_none (Layer.shift_of_not_below hq)]

end Filled

/-! ## Changing a node in place -/

theorem filled_declare {pl : Payload} {auto : Bool} (hf : f.Linked) (hd : f.DistinctBelow a) (ha : a < f.count)
    (hauto : (f.node a).autogenerated = true) :
    Filled a (.single ⟨pl, auto⟩) f (f.modify a fun n => n.declare pl) where
  toGrown := (sameShape_declare pl).grown hf
  distinct := (sameShape_declare pl).distinct hd
  content := by
    funext q
    cases q with
    | nil =>
      have honto : Content.onto ⟨pl, auto⟩ (some (f.node a).content) = ⟨pl, false⟩ := if_pos hauto
      rw [Layer.fill_of_some (c := ⟨pl, auto⟩) rfl, content?_nil, content?_nil, node_modify_self _ ha, honto]
      rfl
    | cons name q => rw [Layer.fill_of_none rfl, (sameShape_declare pl).content?_cons hf hd]

theorem filled_keep {c : Content} (hf : f.Linked) (hd : f.DistinctBelow a) (hauto : (f.node a).autogenerated = false) :
    Filled a (.single c) f f where
  toGrown := .refl hf
  distinct := hd
  content := by
    funext q
    cases q with
    | nil =>
      have honto : c.onto (some (f.node a).content) = (f.node a).content := if_neg (by rw [Node.content, hauto]; simp)
      rw [Layer.fill_of_some (c := c) rfl, content?_nil, honto]
    | cons name q => rw [Layer.fill_of_none rfl]

theorem content?_reorder (hf : f.Linked) (hd : f.DistinctBelow p) (first : List Nat) :
    (f.reorder p first).content? p = f.content? p := by
  funext q
  cases q with
  | nil => exact congrArg some (field_modify Node.content fun _ => rfl)
  | cons name q => exact (sameShape_reorder first).content?_cons hf hd name

theorem filled_reorder (hf : f.Linked) (hd : f.DistinctBelow p) (first : List Nat) :
    Filled p (fun _ => none) f (f.reorder p first) where
  toGrown := (sameShape_reorder first).grown hf
  distinct := (sameShape_reorder first).distinct hd
  content := content?_reorder hf hd first

end Forest
end SignalCatalog
