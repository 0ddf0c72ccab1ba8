import SignalCatalog.Proofs.Expand.Splice
import SignalCatalog.Proofs.Forest.Copies
/-!
# Sketches of merged templates

Merging template subtrees below a target merges their sketches into its sketch.
-/
namespace SignalCatalog

theorem Sketch.splice_nil (b : Sketch) (d : Nat) : b.splice d (fun _ => []) = b := by
  cases b
  cases d <;> simp [Sketch.splice]

namespace Forest

variable {f g f₁ : Forest} {duty : NodeId → Duty} {c d n p e t target x D : Nat} {ts : List Nat}
  {acc : Forest × List NodeId} {name : String} {pl : Payload} {items : List (String × (Nat → Sketch))}

theorem Tidy.of_named (hf : f.Tidy) (h : ∀ x name, g.named x name = f.named x name) : g.Tidy :=
  fun x name => h x name ▸ hf x name

theorem Retains.of_named (h : ∀ x name, g.named x name = f.named x name) : Retains f g := fun x name c hc => by
  rw [← head?_named, h, head?_named, hc]

/-! ## A child that is there -/

theorem children_declareIf (f : Forest) (e : Nat) (pl : Payload) (x : Nat) :
    Forest.children (if (f.node e).autogenerated then f.modify e fun n => n.declare pl else f) x = f.children x := by
  split
  · exact field_modify Node.children fun _ => rfl
  · rfl

theorem named_declareIf (f : Forest) (e : Nat) (pl : Payload) (x : Nat) (name : String) :
    Forest.named (if (f.node e).autogenerated then f.modify e fun n => n.declare pl else f) x name =
      f.named x name := by
  refine named_congr (children_declareIf f e pl x) fun c _ => ?_
  split
  · exact field_modify Node.name fun _ => rfl
  · rfl

theorem sketch_declareIf (hf : f.Linked) (he : e < f.count) {c : Content} (hc : c.payload = pl) :
    Forest.sketch (if (f.node e).autogenerated then f.modify e fun n => n.declare pl else f) duty d e =
      (f.sketch duty d e).fill c := by
  subst hc
  have hcontent : c.onto (some (f.node e).content) = if (f.node e).autogenerated then ⟨c.payload,
    false⟩ else (f.node e).content := rfl
  rw [Sketch.fill, content_sketch, hcontent]
  split
  · exact sketch_modify (k := fun n => n.declare c.payload) hf he (fun _ => rfl) (fun _ => rfl) duty d
  · have hsame : (f.sketch duty d e).content = (f.node e).content := content_sketch
    rw [← hsame]
    cases f.sketch duty d e
    rfl

/-- **A child that takes in a content and then what is listed below** stands for what joins the children of its name. -/
theorem joins_of_spliced {v : Nat → Sketch} (others : Nat → String → List Sketch) (hf : f.Linked) (htidy : f.Tidy)
    (he : f.childNamed? p name = some e) (hg : Grown e f f₁) (hkeeps : Retains f f₁)
    (hfill : ∀ d D, f₁.sketch duty d e = (f.sketch duty d e).fill (v D).content) (hsplice : Spliced duty e others f₁ g)
    (hothers : ∀ D, others D = (v (D + 1)).listed) : Joins duty p name v f g e := by
  have hparent := (hf.mem_childNamed? he).1
  have hgrown := hg.trans hf hsplice.grown
  have hnode : g.node p = f.node p := hgrown.outside (hf.lt_count_parent hparent) (hf.not_below_parent hparent)
  refine ⟨hgrown.mono (Below.refl.down hparent), hsplice.tidy, hkeeps.trans hsplice.keeps, by rw [hnode],
    hsplice.keeps (hkeeps he), fun d D hd => ?_⟩
  obtain ⟨k, r, hold, hnew⟩ := hgrown.kids_eq hf htidy he .refl duty d
  rw [hnew, hold]
  refine congrArg (fun b => Function.update (f.kids duty d p) name ((k, b) :: r)) ?_
  cases d with
  | zero => exact (hsplice.sketch 0 D (Nat.zero_le _)).trans (hfill 0 D)
  | succ d =>
    obtain ⟨D, rfl⟩ : ∃ D', D = D' + 1 := ⟨D - 1, by omega⟩
    rw [hsplice.sketch (d + 1) D hd, hfill (d + 1) (D + 1), hothers]

/-! ## Templates -/

namespace Spare

theorem sketch_eq (h : f.Spare d target t) (hg : Grown target f g) (hf : f.Linked) :
    g.sketch duty D t = f.sketch duty D t :=
  hg.sketch_of_apart hf h.lt_count h.apart

theorem name_eq (h : f.Spare d target t) (hg : Grown target f g) : (g.node t).name = (f.node t).name :=
  hg.name h.lt_count

end Spare

def offers (f : Forest) (duty : NodeId → Duty) (ts : List NodeId) : List (String × (Nat → Sketch)) :=
  ts.map fun t => ((f.node t).name, fun D => f.sketch duty D t)

theorem offers_grown (hg : Grown target f g) (hf : f.Linked) (h : ∀ t ∈ ts, f.Spare d target t) :
    g.offers duty ts = f.offers duty ts :=
  List.map_congr_left fun t ht => by
    rw [(h t ht).name_eq hg]
    exact congrArg _ (funext fun D => (h t ht).sketch_eq hg hf)

theorem under_offers :
    under (f.offers duty ts) D name = (ts.filter fun t => (f.node t).name == name).map (f.sketch duty D) := by
  rw [under, offers, List.filter_map, List.map_map]
  rfl

theorem Tidy.listed_eq (hf : f.Tidy) : under (f.offers duty (f.children t)) D = (f.sketch duty (D + 1) t).listed := by
  funext name
  rw [hf.listed_sketch]
  exact under_offers

section Step

variable (hsplice : ∀ {f : Forest} {ts : List Nat} {e : Nat}, f.Linked → f.Tidy → e < f.count →
  (∀ x, f.count ≤ x → duty x = {}) →
  (∀ t ∈ ts, f.Spare d e t) → Spliced duty e (under (f.offers duty ts)) f (f.spliceWithin d ts e))
include hsplice

theorem joins_spliceOne (hf : acc.1.Linked) (htidy : acc.1.Tidy) (htarget : target < acc.1.count)
    (hduty : ∀ x, acc.1.count ≤ x → duty x = {}) (ht : acc.1.Spare (d + 1) target t) :
    ∃ e, (spliceOne d target acc t).2 = acc.2 ++ [e] ∧
      Joins duty target (acc.1.node t).name (fun D => acc.1.sketch duty D t) acc.1 (spliceOne d target acc t).1 e := by
  unfold spliceOne
  split
  · rename_i e he
    have hparent := (hf.mem_childNamed? he).1
    have hlt := lt_count_of_parent? hparent
    have hdecl := grown_declareIf (e := e) hf (acc.1.node t).payload
    have hnamed := named_declareIf acc.1 e (acc.1.node t).payload
    have hspare {c : Nat} (hc : acc.1.parent? c = some t) := ht.child hc hparent
    have hchildren : Forest.children _ t = acc.1.children t :=
      congrArg Node.children (hdecl.outside ht.lt_count fun h => ht.apart .refl ((Below.refl.down hparent).trans h))
    have hnew := hsplice hdecl.linked (htidy.of_named hnamed) (Nat.lt_of_lt_of_le hlt hdecl.count_le)
      (fun x hx => hduty x (Nat.le_trans hdecl.count_le hx)) fun c hc =>
        (hspare (hf.mem_children.1 (hchildren ▸ hc))).grown hdecl hf
    refine ⟨e, rfl, joins_of_spliced _ hf htidy he hdecl (.of_named hnamed) (fun d D => ?_) hnew fun D => ?_⟩
    · exact sketch_declareIf hf hlt (by rw [content_sketch]; rfl)
    · rw [(htidy.of_named hnamed).listed_eq, ht.sketch_eq (hdecl.mono (Below.refl.down hparent)) hf]
  · rename_i hnone
    refine ⟨_, rfl, ?_⟩
    have hcopy := copies_graft (s := t) hf htidy hf htarget
    have hindex : (acc.1.copySubtree t target).2 = acc.1.count := (copied_graft hf hf htarget).index
    rw [hindex]
    exact hcopy.joins hf hnone duty htidy htarget hduty fun _ => rfl

theorem gathers_foldl_spliceOne (acc : Forest × List NodeId) (hg : Gathers duty target items f acc.1 acc.2)
    (hf : f.Linked) (htarget : target < f.count) (hduty : ∀ x, f.count ≤ x → duty x = {})
    (hts : ∀ t ∈ ts, f.Spare (d + 1) target t) :
    Gathers duty target (items ++ f.offers duty ts) f (ts.foldl (spliceOne d target) acc).1
      (ts.foldl (spliceOne d target) acc).2 := by
  induction ts generalizing acc items with
  | nil => rwa [offers, List.map_nil, List.append_nil]
  | cons t ts ih =>
    obtain ⟨ht, hts⟩ := List.forall_mem_cons.1 hts
    obtain ⟨e, hes, hone⟩ :=
      joins_spliceOne hsplice hg.grown.linked hg.tidy (Nat.lt_of_lt_of_le htarget hg.grown.count_le)
      (fun x hx => hduty x (Nat.le_trans hg.grown.count_le hx)) (ht.grown hg.grown hf)
    rw [ht.name_eq hg.grown, show (fun D => acc.1.sketch duty D t) = fun D => f.sketch duty D t from
      funext fun D => ht.sketch_eq hg.grown hf] at hone
    have hnext := hg.snoc hf hone
    rw [← hes] at hnext
    have := ih _ hnext hts
    rwa [List.append_assoc] at this

end Step

/-- **Merging templates merges their sketches into that of the target.** -/
theorem spliced_spliceWithin (hf : f.Linked) (htidy : f.Tidy) (htarget : target < f.count)
    (hduty : ∀ x, f.count ≤ x → duty x = {}) (hts : ∀ t ∈ ts, f.Spare d target t) :
    Spliced duty target (under (f.offers duty ts)) f (f.spliceWithin d ts target) := by
  induction d generalizing f ts target with
  | zero =>
    obtain rfl : ts = [] := List.eq_nil_iff_forall_not_mem.2 fun t ht => absurd ((hts t ht).shallow _ _ .here) (by simp)
    exact ⟨.refl hf, htidy, .refl, fun d D _ => (Sketch.splice_nil _ d).symm⟩
  | succ d ih =>
    rw [spliceWithin_succ]
    exact (gathers_foldl_spliceOne ih (f, []) (.nil hf htidy) hf htarget hduty hts).spliced hf

theorem spliced_splice (hf : f.Linked) (htidy : f.Tidy) (htarget : target < f.count)
    (hduty : ∀ x, f.count ≤ x → duty x = {}) (hts : ∀ t ∈ ts, t < f.count ∧ f.Apart t target) :
    Spliced duty target (under (f.offers duty ts)) f (f.splice ts target) :=
  spliced_spliceWithin hf htidy htarget hduty fun t ht =>
    ⟨(hts t ht).1, (hts t ht).2, fun _ _ hx => Nat.lt_succ_of_le (hf.length_le_count hx)⟩

end Forest
end SignalCatalog
