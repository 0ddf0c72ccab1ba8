import SignalCatalog.Proofs.Expand.Passes
import SignalCatalog.Proofs.Expand.Planting
/-!
# The sketch of an expanded branch

What an expansion makes of a branch, and whether it fails, can be told from the sketch of the branch: the order in which
its children are listed does not matter.
-/
namespace SignalCatalog

namespace Sketch

variable {b : Sketch} {first : List String} {d : Nat}

def template (b : Sketch) (first : List String) (name : String) : List Sketch :=
  if first.contains name then [] else (b.listed name).filter fun c => c.content.payload.common.instantiate

def rest (b : Sketch) (first : List String) : Sketch :=
  { b with
    kids := fun name =>
      if first.contains name then b.kids name else (b.kids name).filter fun e =>
        !e.2.content.payload.common.instantiate }

def clearInstances (b : Sketch) : Sketch :=
  { b with content := ⟨b.content.payload.clearInstances, b.content.autogenerated⟩ }

/-- **Sketches merged into the nodes at some paths**, one node after another. -/
def spliceAt (depth : Nat) (others : String → List Sketch) (paths : List (List String)) (b : Sketch) : Option Sketch :=
  paths.foldlM (fun b path => b.reach (fun depth b => some (b.splice depth others)) depth path) b

/-- **The expansion of a branch**, as its sketch shows it. -/
def expand (depth : Nat) (b : Sketch) : Option Sketch :=
  match Tree.levelNames b.content.payload with
  | .error _ => none
  | .ok levels => do
    let made ← (b.rest (levels.head?.getD [])).instances b.content.payload.clearInstances depth levels [[]]
    let done ← made.spliceAt depth (b.template (levels.head?.getD [])) (Level.leaves levels [[]])
    return done.clearInstances

theorem spliceAt_zero (others : String → List Sketch) (paths : List (List String)) (b : Sketch) :
    b.spliceAt 0 others paths = some b := by
  rw [spliceAt]
  induction paths with
  | nil => rfl
  | cons path paths ih => cases path <;> exact ih

end Sketch

namespace Tree

variable {t t' u : Tree} {duty : NodeId → Duty} {n p x c d D : Nat} {name : String} {levels Ps : List (List String)}
  {ts leaves : List NodeId}

/-! ## The template cut off -/

theorem children_foldl_detach {f : Forest} (hf : f.Linked) (cs : List Nat) :
    (cs.foldl Forest.detach f).children x = (f.children x).filter fun c => !cs.contains c := by
  induction cs using List.reverseRecOn with
  | nil => simp
  | append_singleton cs c ih =>
    rw [List.foldl_append, List.foldl_cons, List.foldl_nil, Forest.children,
      Forest.node_detach_of_linked ((Forest.cut_foldl_detach hf cs).linked hf)]
    dsimp only
    rw [ih, List.filter_filter]
    refine List.filter_congr fun e _ => ?_
    rw [Bool.eq_iff_iff]
    simp [and_comm]

section Cut

variable (ht : t.Linked)
include ht

theorem children_withoutTemplate : (t.withoutTemplate n levels).children x = (t.children x).filter fun c =>
    !(t.template n levels).contains c :=
  children_foldl_detach ht _

theorem named_withoutTemplate : (t.withoutTemplate n levels).named x name =
    (t.named x name).filter fun c => !(t.template n levels).contains c := by
  have hcut := cut_withoutTemplate ht n levels
  rw [Forest.named, children_withoutTemplate ht, Forest.named, List.filter_filter, List.filter_filter]
  exact List.filter_congr fun c _ => by rw [hcut.name, Bool.and_comm]

theorem tidy_withoutTemplate (htidy : t.Tidy) : (t.withoutTemplate n levels).Tidy := fun x name => by
  rw [named_withoutTemplate ht]
  exact ((htidy x name).filter _).1

theorem sameAt_withoutTemplate (hx : x ≠ n) : Forest.SameAt t.toForest (t.withoutTemplate n levels).toForest x := by
  have hcut := cut_withoutTemplate ht n levels
  refine ⟨hcut.name x, hcut.content x, (children_withoutTemplate ht).trans (List.filter_eq_self.2 fun e he => ?_)⟩
  rw [Bool.not_eq_true', List.contains_eq_mem, decide_eq_false_iff_not]
  intro hmem
  have := (ht.mem_children.1 he).symm.trans (parent?_of_mem_template ht hmem)
  exact hx (Option.some_inj.1 this)

theorem sketch_withoutTemplate_child (hc : t.parent? c = some n) :
    (t.withoutTemplate n levels).sketch duty d c = t.sketch duty d c := by
  refine Forest.sketch_congr ht fun y hy => sameAt_withoutTemplate ht ?_
  rintro rfl
  exact ht.not_below_parent hc hy

theorem sketch_withoutTemplate (htidy : t.Tidy) :
    (t.withoutTemplate n levels).sketch duty d n = (t.sketch duty d n).rest (levels.head?.getD []) := by
  have hcut := cut_withoutTemplate ht n levels
  cases d with
  | zero => simp [Forest.sketch, Sketch.rest, hcut.content n]
  | succ d =>
    rw [Forest.sketch_succ, Forest.sketch_succ, Sketch.rest, hcut.content n]
    congr 1
    funext name
    dsimp only
    have hmem {c : Nat} (hc : c ∈ t.named n name) : c ∈ t.template n levels ↔
        (t.node c).payload.common.instantiate = true ∧ name ∉ levels.head?.getD [] := by
      obtain ⟨hchild, rfl⟩ := Forest.mem_named.1 hc
      simp [template, templates, hchild]
    rw [Forest.kids, named_withoutTemplate ht, ((htidy n name).filter _).2]
    have hsame : ∀ e ∈ tally (t.named n name), (t.withoutTemplate n levels).sketch duty d e.2 = t.sketch duty d e.2 :=
      fun e he => sketch_withoutTemplate_child ht (ht.mem_of_tally he).1
    rw [List.map_congr_left fun e he => by rw [hsame e (List.mem_of_mem_filter he)]]
    split
    · rename_i hfirst
      rw [Forest.kids, List.filter_eq_self.2 fun e he => ?_]
      simp [hmem (mem_tally he).1, List.contains_iff_mem.1 hfirst]
    · rename_i hfirst
      rw [Forest.kids, List.filter_map]
      refine congrArg _ (List.filter_congr fun e he => ?_)
      rw [Function.comp_apply, Forest.content_sketch, Bool.eq_iff_iff]
      simp [hmem (mem_tally he).1, mt List.contains_iff_mem.2 hfirst, Node.content]

omit ht in
theorem template_sketch (htidy : t.Tidy) :
    (t.sketch duty (d + 1) n).template (levels.head?.getD []) =
      Forest.under (t.offers duty (t.template n levels)) d := by
  funext name
  rw [Forest.under_offers, Sketch.template, htidy.listed_sketch, List.filter_map, template,
    templates, List.filter_filter]
  split
  · rename_i hfirst
    rw [List.filter_eq_nil_iff.2 fun c _ => ?_]
    · rfl
    · by_cases hname : (t.node c).name = name <;> simp [hname, List.contains_iff_mem.1 hfirst]
  · rename_i hfirst
    rw [Forest.named, List.filter_filter]
    refine congrArg _ (List.filter_congr fun c _ => ?_)
    rw [Function.comp_apply, Forest.content_sketch, Bool.eq_iff_iff]
    by_cases hname : (t.node c).name = name <;> simp [hname, mt List.contains_iff_mem.2 hfirst, Node.content]

end Cut

/-! ## The template merged below the instances -/

theorem spliceAt_foldl {f : Forest} (hf : f.Linked) (htidy : f.Tidy) (hn : n < f.count)
    (hduty : ∀ x, f.count ≤ x → duty x = {}) (hts : ∀ c ∈ ts, c < f.count ∧ f.Apart c n)
    (hleaves : List.Forall₂ (fun q x => f.descend? n q = some x) Ps leaves) (hd : d ≤ D + 1) :
    (f.sketch duty d n).spliceAt d (Forest.under (f.offers duty ts) D) Ps =
        some ((leaves.foldl (fun f leaf => f.splice ts leaf) f).sketch duty d n) ∧
      (leaves.foldl (fun f leaf => f.splice ts leaf) f).Tidy ∧
      Forest.Retains f (leaves.foldl (fun f leaf => f.splice ts leaf) f) := by
  induction Ps generalizing f leaves with
  | nil =>
    cases hleaves
    exact ⟨rfl, htidy, .refl⟩
  | cons q Ps ih =>
    obtain ⟨leaf, leaves, hq, hrest, rfl⟩ := List.forall₂_cons_left_iff.1 hleaves
    have hroute := hf.route_of_descend? hq
    have hone := Forest.spliced_splice hf htidy (hroute.lt_count hn) hduty fun c hc =>
      ⟨(hts c hc).1, fun y hy hleaf => (hts c hc).2 hy (Forest.Below.trans ⟨q, hroute⟩ hleaf)⟩
    have hgrown := hone.grown.mono (a := n) ⟨q, hroute⟩
    have hspare : ∀ c ∈ ts, f.Spare (f.count + 1) n c := fun c hc =>
      ⟨(hts c hc).1, (hts c hc).2, fun _ _ hx => Nat.lt_succ_of_le (hf.length_le_count hx)⟩
    have hnext := ih hgrown.linked hone.tidy (Nat.lt_of_lt_of_le hn hgrown.count_le)
      (fun x hx => hduty x (Nat.le_trans hgrown.count_le hx))
      (fun c hc => ⟨Nat.lt_of_lt_of_le (hts c hc).1 hgrown.count_le, hgrown.apart hf (hts c hc).1 (hts c hc).2⟩)
      (hrest.imp fun _ _ hq => hone.keeps.descend? hq)
    rw [Forest.offers_grown hgrown hf hspare] at hnext
    refine ⟨?_, hnext.2.1, hone.keeps.trans hnext.2.2⟩
    have hreach :
        (f.sketch duty d n).reach (fun d b => some (b.splice d (Forest.under (f.offers duty ts) D))) d q = _ :=
      hone.grown.reach htidy hq hf (N := D + 1) (fun d' hd' => by rw [hone.sketch d' D hd']) hd
    rw [Sketch.spliceAt, List.foldlM_cons, hreach]
    exact hnext.1

/-! ## The branch -/

theorem kind_of_levelNames {p : Payload} (h : levelNames p = .ok levels) (hne : levels ≠ []) : p.kind = .branch := by
  refine Payload.kind_of_instances fun hnil => hne ?_
  rw [levelNames, hnil] at h
  cases h
  rfl

theorem Fertile.withoutTemplate (h : t.Fertile duty n) : (t.withoutTemplate n levels).Fertile duty n :=
  have hcut := cut_withoutTemplate h.linked n levels
  ⟨hcut.linked h.linked, tidy_withoutTemplate h.linked h.tidy, by rw [hcut.count]; exact h.lt_count,
    fun x hx => h.duty x (by rwa [hcut.count] at hx)⟩

/-- **The template merged below the instances** is as the sketch of the branch has it. -/
theorem spliceAt_template (h : t.Fertile duty n) (hplanted : Planted n (t.withoutTemplate n levels) u)
    (hstand : u.StandAt n Ps leaves) (d : Nat) :
    (u.sketch duty d n).spliceAt d ((t.sketch duty d n).template (levels.head?.getD [])) Ps =
        some ((leaves.foldl (fun f leaf => f.splice (t.template n levels) leaf) u.toForest).sketch duty d n) ∧
      (leaves.foldl (fun f leaf => f.splice (t.template n levels) leaf) u.toForest).Tidy ∧
      Forest.Retains u.toForest (leaves.foldl (fun f leaf => f.splice (t.template n levels) leaf) u.toForest) := by
  have hcut := cut_withoutTemplate h.linked n levels
  have hw : (t.withoutTemplate n levels).Fertile duty n := h.withoutTemplate
  have hu := hw.planted hplanted
  have hparent : ∀ c ∈ t.template n levels, t.parent? c = some n := fun _ hc => parent?_of_mem_template h.linked hc
  have hspare : ∀ c ∈ t.template n levels, (t.withoutTemplate n levels).Spare (t.count + 1) n c := fun c hc =>
    ⟨by rw [hcut.count]; exact Forest.lt_count_of_parent? (hparent c hc), hcut.apart hparent h.linked hc,
      fun _ _ hx => Nat.lt_succ_of_le (h.linked.length_le_count (hcut.route h.linked hx))⟩
  have hts : ∀ c ∈ t.template n levels, c < u.count ∧ u.Apart c n := fun c hc =>
    have hc' := (hspare c hc).grown hplanted.grown hw.linked
    ⟨hc'.lt_count, hc'.apart⟩
  have hoffers : u.offers duty (t.template n levels) = t.offers duty (t.template n levels) := by
    rw [Forest.offers_grown hplanted.grown hw.linked hspare]
    refine List.map_congr_left fun c hc => ?_
    rw [hcut.name]
    exact congrArg _ (funext fun D => sketch_withoutTemplate_child h.linked (hparent c hc))
  have hall (d D : Nat) (hd : d ≤ D + 1) :=
    spliceAt_foldl (d := d) (D := D) hu.linked hu.tidy hu.lt_count hu.duty hts hstand hd
  refine ⟨?_, (hall 0 0 (Nat.zero_le _)).2⟩
  cases d with
  | zero => rw [Sketch.spliceAt_zero, ← (hall 0 0 (Nat.zero_le _)).1, Sketch.spliceAt_zero]
  | succ d => rw [template_sketch h.tidy, ← hoffers, (hall (d + 1) d (Nat.le_refl _)).1]

/-- **The sketch of an expanded branch** is the expansion of its sketch, and a failure shows in the sketch. -/
theorem expandNode_sketch (h : t.Fertile duty n) :
    (∃ k t', (expandNode n).on t = (.ok k, t') ∧ t'.Tidy ∧ ∀ d,
      (t.sketch duty d n).expand d = some (t'.sketch duty d n)) ∨
      ∃ e t' d, (expandNode n).on t = (.error e, t') ∧ (t.sketch duty d n).expand d = none := by
  have hcontent (d : Nat) : (t.sketch duty d n).content.payload = (t.node n).payload := by
    rw [Forest.content_sketch]
    rfl
  cases hlevels : levelNames (t.node n).payload with
  | error e =>
    refine .inr ⟨e, t, 0, ?_, ?_⟩
    · rw [expandNode, on_get_bind, hlevels]
      exact on_bind_error (on_lift_error e t)
    · rw [Sketch.expand, hcontent, hlevels]
  | ok levels =>
    have hw : (t.withoutTemplate n levels).Fertile duty n := h.withoutTemplate
    have hproto : levels ≠ [] → (t.node n).payload.clearInstances.kind = .branch := fun hne => by
      rw [Payload.kind_clearInstances]
      exact kind_of_levelNames hlevels hne
    have htraced := instanceLevels_traced hw hproto (.cons rfl .nil : StandAt _ n [[]] [n])
    -- an instance fails in the tree exactly where its sketch shows something in the way
    rcases hmade : (instanceLevels (t.node n).payload.clearInstances levels [n]).on (t.withoutTemplate n levels) with
      ⟨e | leaves, u⟩
    · rw [hmade] at htraced
      cases htraced with
      | error d hnone =>
        refine .inr ⟨e, u, d, expandNode_on_error h.linked hlevels hmade, ?_⟩
        rw [Sketch.expand, hcontent, hlevels]
        dsimp only
        rw [← sketch_withoutTemplate h.linked h.tidy, hnone]
        rfl
    · rw [hmade] at htraced
      cases htraced with
      | ok hplanted hstand hsketch =>
        have hu := hw.planted hplanted
        have hdone := spliceAt_template h hplanted hstand
        have hbelow :=
          (instanceLevels_instanced (n := n) hw.linked hw.lt_count (by simp [Forest.Below.refl]) hmade).below
        have hgrown :
            Forest.Grown n u.toForest (leaves.foldl (fun f leaf => f.splice (t.template n levels) leaf) u.toForest) :=
          grown_foldl_splice hu.linked hu.lt_count hbelow
        refine .inl ⟨_, _, expandNode_on_ok h.linked hlevels hmade, ?_, fun d => ?_⟩
        · refine (hdone 0).2.1.of_named fun x name => ?_
          exact Forest.named_congr (Forest.field_modify Node.children fun _ => rfl) fun c _ =>
            Forest.field_modify Node.name fun _ => rfl
        · have hclear := Forest.sketch_modify (k := fun m => { m with payload := m.payload.clearInstances })
            hgrown.linked (Nat.lt_of_lt_of_le hu.lt_count hgrown.count_le) (fun _ => rfl) (fun _ => rfl) duty d
          have hsketch := hsketch d
          rw [sketch_withoutTemplate h.linked h.tidy] at hsketch
          rw [Sketch.expand, hcontent, hlevels]
          simp only [hsketch, (hdone d).1, Option.bind_eq_bind, Option.bind_some, Option.pure_def]
          rw [finishBranch]
          refine congrArg some (Eq.trans ?_ hclear.symm)
          rw [Sketch.clearInstances, Forest.content_sketch]
          rfl

end Tree
end SignalCatalog
