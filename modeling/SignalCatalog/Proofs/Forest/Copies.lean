import SignalCatalog.Proofs.Forest.Graft
import SignalCatalog.Proofs.Forest.Joined
/-!
# Sketches of copies

A grafted subtree has the sketch of a copy of its source, whatever stands beside it.  A child that its parent lists many
times comes out as many children.
-/
namespace SignalCatalog
namespace Forest

variable {f g h source : Forest} {duty duty' : NodeId → Duty} {c d p s x D : Nat} {cs ds ids jds : List Nat}
  {name : String} {n : Node}

theorem Tidy.listed_sketch (hf : f.Tidy) :
    (f.sketch duty (d + 1) p).listed name = (f.named p name).map (f.sketch duty d) := by
  rw [Sketch.listed, sketch_succ]
  exact (untally_map _ _).trans (congrArg _ (hf p name))

/-- **New children have come to a node**, copies of some nodes of a source, and nothing else has changed. -/
structure Copies (source : Forest) (cs : List Nat) (p : Nat) (f g : Forest) (ids : List Nat) :
    Prop extends Grown p f g where
  node : g.node p = { f.node p with children := f.children p ++ ids }
  other : ∀ {x : Nat}, x < f.count → x ≠ p → g.node x = f.node x
  new : ∀ i ∈ ids, f.count ≤ i ∧ i < g.count
  nodup : ids.Nodup
  tidy : ∀ x, f.count ≤ x → ∀ name, Grouped (g.named x name)
  sketches : ∀ {duty : NodeId → Duty} (duty' : NodeId → Duty) {d D : Nat}, (∀ x, f.count ≤ x → duty x = {}) → d ≤ D →
    ids.map (fun i => ((g.node i).name, g.sketch duty d i)) =
      cs.map fun c => ((source.node c).name, (source.sketch duty' D c).copy d)

namespace Copies

theorem nil (hf : f.Linked) : Copies source [] p f f [] where
  toGrown := .refl hf
  node := by rw [List.append_nil]; rfl
  other := fun _ _ => rfl
  new := by simp
  nodup := .nil
  tidy := fun x hx name => by
    rw [named, children_of_count_le hx]
    exact grouped_of_nodup .nil
  sketches := fun _ _ _ _ _ => rfl

theorem children_eq (h : Copies source cs p f g ids) : g.children p = f.children p ++ ids :=
  congrArg Node.children h.node

theorem sketch_other (h : Copies source cs p f g ids) (hf : f.Linked) (hb : c < f.count) (hp : ¬ f.Below c p) :
    g.sketch duty d c = f.sketch duty d c := by
  refine sketch_congr hf fun y hy => .of_eq (h.other (hy.lt_count hb) ?_)
  rintro rfl
  exact hp hy

theorem append (hg : Copies source cs p f g ids) (hf : f.Linked) (hp : p < f.count) (hh : Copies source ds p g h jds) :
    Copies source (cs ++ ds) p f h (ids ++ jds) where
  toGrown := hg.toGrown.trans hf hh.toGrown
  node := by rw [hh.node, hg.children_eq, hg.node, List.append_assoc]
  other := fun hx hne => by rw [hh.other (Nat.lt_of_lt_of_le hx hg.count_le) hne, hg.other hx hne]
  new := fun i hi => by
    have hfg := hg.count_le
    have hgh := hh.count_le
    rcases List.mem_append.1 hi with hi | hi
    · have := hg.new i hi
      omega
    · have := hh.new i hi
      omega
  nodup := List.nodup_append.2 ⟨hg.nodup, hh.nodup, fun i hi j hj => by
    have := hg.new i hi
    have := hh.new j hj
    omega⟩
  tidy := fun x hx name => by
    by_cases hxg : x < g.count
    · have hnamed : h.named x name = g.named x name :=
        named_congr (congrArg Node.children (hh.other hxg (by omega))) fun c hc =>
          hh.name (lt_count_of_parent? (hg.linked.mem_children.1 hc))
      rw [hnamed]
      exact hg.tidy x hx name
    · exact hh.tidy x (by omega) name
  sketches := fun {duty} duty' {d D} hduty hd => by
    rw [List.map_append, List.map_append, ← hg.sketches duty' hduty hd,
      ← hh.sketches duty' (fun x hx => hduty x (Nat.le_trans hg.count_le hx)) hd]
    refine congrArg (· ++ _) (List.map_congr_left fun i hi => ?_)
    have hchild : g.parent? i = some p := hg.linked.mem_children.1 (hg.children_eq ▸ List.mem_append_right _ hi)
    rw [hh.name (hg.new i hi).2, hh.sketch_other hg.linked (hg.new i hi).2 (hg.linked.not_below_parent hchild)]

end Copies

theorem filter_map_of_map_eq {α : Type} {l l' : List Nat} {m m' : Nat → String} {v v' : Nat → α}
    (h : l.map (fun i => (m i, v i)) = l'.map fun i => (m' i, v' i)) (name : String) :
    (l.filter fun i => m i == name).map v = (l'.filter fun i => m' i == name).map v' := by
  have hfilter (l : List Nat) (m : Nat → String) (v : Nat → α) :
      (l.filter fun i => m i == name).map v = ((l.map fun i => (m i, v i)).filter fun e => e.1 == name).map (·.2) := by
    rw [List.filter_map, List.map_map]
    rfl
  rw [hfilter, h, ← hfilter]

theorem copies_of_children (hs : source.Tidy) (hf : f.Linked) (hp : p < f.count)
    (hall : Copies source (source.children s) f.count (f.addChild p (source.node s).alone).1 g ids) :
    Copies source [s] p f g [f.count] := by
  have hadd := grown_addChild (n := (source.node s).alone) hf hp rfl rfl
  have hroute := route_addChild (n := (source.node s).alone) hp rfl rfl
  have hcount : (f.addChild p (source.node s).alone).1.count = f.count + 1 := count_addChild _
  have hself : (f.addChild p (source.node s).alone).1.node f.count =
      { (source.node s).alone with parent := some p } := by
    rw [node_addChild hp rfl rfl, if_pos rfl]
  have hlt := hall.count_le
  have hids : g.children f.count = ids := by
    rw [hall.children_eq, children, hself]
    rfl
  refine ⟨hadd.trans hf (hall.toGrown.mono ⟨_, hroute⟩), ?_, fun {x} hx hne => ?_, ?_,
    List.nodup_singleton _, fun x hx name => ?_, fun {duty} duty' {d D} hduty hd => ?_⟩
  · rw [hall.other (by omega) (by omega), node_addChild hp rfl rfl, if_neg (by omega), if_pos rfl]
  · rw [hall.other (by omega) (by omega), node_addChild hp rfl rfl, if_neg (by omega), if_neg hne]
  · intro i hi
    rw [List.mem_singleton.1 hi]
    omega
  · by_cases hxf : x = f.count
    · rw [named, hxf, hids]
      exact grouped_of_nodup (hall.nodup.filter _)
    · exact hall.tidy x (by omega) name
  · have hname : (g.node f.count).name = (source.node s).name := by
      rw [hall.name (by omega), hself]
      rfl
    have hcontent : (g.node f.count).content = (source.node s).content := by
      rw [hall.node, hself]
      rfl
    rw [List.map_singleton, List.map_singleton, hname]
    refine congrArg (fun b => [(_, b)]) ?_
    cases d with
    | zero => rw [sketch, Sketch.copy, hcontent, hduty _ (Nat.le_refl _), content_sketch]
    | succ d =>
      obtain ⟨D, rfl⟩ : ∃ D', D = D' + 1 := ⟨D - 1, by omega⟩
      rw [sketch_succ, Sketch.copy, hcontent, hduty _ (Nat.le_refl _), content_sketch]
      congr 1
      funext name
      -- one level down, the new children come by name as the children of the source do
      have hsame := hall.sketches duty' (D := D) (fun x hx => hduty x (by omega)) (Nat.le_of_succ_le_succ hd)
      rw [hs.listed_sketch, List.map_map, kids, named, hids, tally_of_nodup (hall.nodup.filter _), List.map_map]
      have := congrArg (List.map fun b => (1, b)) (filter_map_of_map_eq hsame name)
      rwa [List.map_map, List.map_map] at this

theorem copies_foldl_graft (cs : List Nat) (hcopy : ∀ {f : Forest} {c p : Nat}, f.Linked → p < f.count → c ∈ cs →
      Copies source [c] p f (source.graftWithin d f c p).1 [f.count]) (hf : f.Linked) (hp : p < f.count) :
    ∃ ids, Copies source cs p f (cs.foldl (fun f c => (source.graftWithin d f c p).1) f) ids := by
  induction cs generalizing f with
  | nil => exact ⟨[], .nil hf⟩
  | cons c cs ih =>
    have hone := hcopy hf hp List.mem_cons_self
    obtain ⟨ids, hrest⟩ :=
      ih (fun hf hp hc => hcopy hf hp (List.mem_cons_of_mem _ hc)) hone.linked (Nat.lt_of_lt_of_le hp hone.count_le)
    exact ⟨_, hone.append hf hp hrest⟩

theorem copies_graftWithin (hs : source.Linked) (htidy : source.Tidy)
    (hdepth : ∀ q x, source.Route s q x → q.length ≤ d) (hf : f.Linked) (hp : p < f.count) :
    Copies source [s] p f (source.graftWithin d f s p).1 [f.count] := by
  induction d generalizing f s p with
  | zero =>
    have hleaf := Route.children_eq_nil hs hdepth
    have hall : Copies source (source.children s) f.count (f.addChild p (source.node s).alone).1
        (f.addChild p (source.node s).alone).1 [] := by
      rw [hleaf]
      exact .nil (grown_addChild hf hp rfl rfl).linked
    exact copies_of_children htidy hf hp hall
  | succ d ih =>
    obtain ⟨ids, hall⟩ := copies_foldl_graft (source.children s)
      (fun hf hp hc => ih (Route.length_le_child hdepth (hs.mem_children.1 hc)) hf hp)
        (grown_addChild (n := (source.node s).alone) hf hp rfl rfl).linked
      (show f.count < (f.addChild p (source.node s).alone).1.count by simp)
    exact copies_of_children htidy hf hp hall

/-- **A grafted subtree** is one new child, with the sketch of a copy. -/
theorem copies_graft (hs : source.Linked) (htidy : source.Tidy) (hf : f.Linked) (hp : p < f.count) :
    Copies source [s] p f (f.graft source s p).1 [f.count] :=
  copies_graftWithin hs htidy (fun _ _ h => hs.length_le_count h) hf hp

namespace Copies

/-! ## A new child of a new name -/

section OneChild

variable (hg : Copies source [s] p f g [f.count])
include hg

theorem name_copy : (g.node f.count).name = (source.node s).name := by
  have hone : [f.count].map (fun i => ((g.node i).name, g.sketch (fun _ => {}) 0 i)) = _ :=
    hg.sketches (fun _ => {}) (fun _ _ => rfl) (Nat.le_refl 0)
  rw [List.map_singleton, List.map_singleton] at hone
  exact congrArg Prod.fst (List.singleton_inj.1 hone)

theorem sketch_copy (duty' : NodeId → Duty) (hduty : ∀ x, f.count ≤ x → duty x = {}) (hd : d ≤ D) :
    g.sketch duty d f.count = (source.sketch duty' D s).copy d := by
  have hone := hg.sketches duty' hduty hd
  rw [List.map_singleton, List.map_singleton] at hone
  exact congrArg Prod.snd (List.singleton_inj.1 hone)

variable (hf : f.Linked) (hnew : f.childNamed? p (source.node s).name = none)
include hf hnew

theorem named_eq (hx : x < f.count) (name : String) :
    g.named x name = if x = p ∧ name = (source.node s).name then [f.count] else f.named x name := by
  have hold : (f.children x).filter (fun c => (g.node c).name == name) = f.named x name :=
    List.filter_congr fun c hc => by rw [hg.name (lt_count_of_parent? (hf.mem_children.1 hc))]
  by_cases hxp : x = p
  · subst hxp
    rw [named, hg.children_eq, List.filter_append, hold, List.filter_singleton, hg.name_copy]
    by_cases hname : name = (source.node s).name
    · subst hname
      simp [named_eq_nil.2 hnew]
    · simp [hname, beq_eq_false_iff_ne.2 (Ne.symm hname)]
  · rw [if_neg (fun h => hxp h.1), named, children, hg.other hx hxp]
    exact hold

theorem retains : Retains f g := fun x name c hc => by
  have hx := lt_count_of_mem_children (List.mem_of_find?_eq_some hc)
  have hne : ¬ (x = p ∧ name = (source.node s).name) := by
    rintro ⟨rfl, rfl⟩
    rw [hnew] at hc
    cases hc
  rw [← head?_named, hg.named_eq hf hnew hx, if_neg hne, head?_named, hc]

/-- **A new child of a new name** is what joins the children of its name. -/
theorem joins {v : Nat → Sketch} (duty' : NodeId → Duty) (htidy : f.Tidy) (hp : p < f.count)
    (hduty : ∀ x, f.count ≤ x → duty x = {}) (hv : ∀ D, v D = source.sketch duty' D s) :
    Joins duty p (source.node s).name v f g f.count := by
  refine ⟨hg.toGrown, fun x name => ?_, hg.retains hf hnew, by rw [hg.node]; rfl, ?_,
    fun d D hd => funext fun name => ?_⟩
  · by_cases hx : x < f.count
    · rw [hg.named_eq hf hnew hx]
      split
      · exact grouped_of_nodup (List.nodup_singleton _)
      · exact htidy x name
    · exact hg.tidy x (Nat.le_of_not_lt hx) name
  · rw [← head?_named, hg.named_eq hf hnew hp, if_pos ⟨rfl, rfl⟩]
    rfl
  · by_cases hname : name = (source.node s).name
    · subst hname
      rw [Function.update_self, kids_eq_nil hnew, kids, hg.named_eq hf hnew hp, if_pos ⟨rfl, rfl⟩,
        tally_of_nodup (List.nodup_singleton _),
        List.map_singleton, List.map_singleton, hg.sketch_copy duty' hduty hd, ← hv]
      rfl
    · rw [Function.update_of_ne hname]
      refine kids_congr (by rw [hg.named_eq hf hnew hp, if_neg fun h => hname h.2]) fun c hc => ?_
      have hparent := hf.mem_children.1 (mem_named.1 hc).1
      exact hg.sketch_other hf (lt_count_of_parent? hparent) (hf.not_below_parent hparent)

end OneChild

end Copies

end Forest
end SignalCatalog
