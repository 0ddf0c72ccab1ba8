import SignalCatalog.Proofs.Forest.Graft
import SignalCatalog.Tree.Expand
/-!
# Merging templates below a node

What `Forest.splice` makes of the contents below its target: the places of the templates are filled, each below its own
name.
-/
namespace SignalCatalog
namespace Forest

variable {f g : Forest} {d target t c e x : Nat} {ts : List Nat} {acc : Forest × List NodeId}

/-- **One template merged below a target**; the list collects the nodes that stand for the templates. -/
def spliceOne (d : Nat) (target : NodeId) (acc : Forest × List NodeId) (t : NodeId) : Forest × List NodeId :=
  match acc.1.childNamed? target (acc.1.node t).name with
  | some e =>
    let f := if (acc.1.node e).autogenerated then acc.1.modify e fun n => n.declare (acc.1.node t).payload else acc.1
    (f.spliceWithin d (f.children t) e, acc.2 ++ [e])
  | none => ((acc.1.copySubtree t target).1, acc.2 ++ [(acc.1.copySubtree t target).2])

theorem spliceWithin_succ (f : Forest) (d : Nat) (ts : List NodeId) (target : NodeId) :
    f.spliceWithin (d + 1) ts target =
    (ts.foldl (spliceOne d target) (f, [])).1.reorder target (ts.foldl (spliceOne d target) (f, [])).2 := by
  rw [spliceWithin]
  rfl

theorem grown_declareIf (hf : f.Linked) (pl : Payload) :
    Grown e f (if (f.node e).autogenerated then f.modify e fun n => n.declare pl else f) := by
  split
  · exact (sameShape_declare pl).grown hf
  · exact .refl hf

/-! ## Growth, whatever the templates are -/

theorem grown_spliceOne
    (hsplice : ∀ {f : Forest} {ts : List Nat} {e : Nat}, f.Linked → e < f.count → Grown e f (f.spliceWithin d ts e))
    (hf : acc.1.Linked) (ht : target < acc.1.count) : Grown target acc.1 (spliceOne d target acc t).1 := by
  unfold spliceOne
  split
  · rename_i e he
    have hparent := (hf.mem_childNamed? he).1
    have hdecl := grown_declareIf (e := e) hf (acc.1.node t).payload
    have hlt := Nat.lt_of_lt_of_le (lt_count_of_parent? hparent) hdecl.count_le
    exact (hdecl.trans hf (hsplice hdecl.linked hlt)).mono (Below.refl.down hparent)
  · exact (copied_graft hf hf ht).grown

theorem grown_foldl_spliceOne
    (hsplice : ∀ {f : Forest} {ts : List Nat} {e : Nat}, f.Linked → e < f.count → Grown e f (f.spliceWithin d ts e))
    (hf : acc.1.Linked) (ht : target < acc.1.count) : Grown target acc.1 (ts.foldl (spliceOne d target) acc).1 := by
  induction ts generalizing acc with
  | nil => exact .refl hf
  | cons t ts ih =>
    have hone := grown_spliceOne (t := t) hsplice hf ht
    exact hone.trans hf (ih hone.linked (Nat.lt_of_lt_of_le ht hone.count_le))

theorem grown_spliceWithin (hf : f.Linked) (ht : target < f.count) : Grown target f (f.spliceWithin d ts target) := by
  induction d generalizing f ts target with
  | zero => exact .refl hf
  | succ d ih =>
    have hfold : Grown target f (ts.foldl (spliceOne d target) (f, [])).1 :=
      grown_foldl_spliceOne ih (show (f, ([] : List NodeId)).1.Linked from hf) ht
    rw [spliceWithin_succ]
    exact hfold.trans hf ((sameShape_reorder _).grown hfold.linked)

/-! ## What is filled -/

/-- **A node that may serve as a template below a target**: a tree apart from the target's, less than `d` deep. -/
structure Spare (f : Forest) (d target t : Nat) : Prop where
  lt_count : t < f.count
  apart : f.Apart t target
  shallow : ∀ q x, f.Route t q x → q.length < d

namespace Spare

theorem grown (h : f.Spare d target t) (hg : Grown target f g) (hf : f.Linked) : g.Spare d target t where
  lt_count := Nat.lt_of_lt_of_le h.lt_count hg.count_le
  apart := hg.apart hf h.lt_count h.apart
  shallow := fun q x hx => h.shallow q x (hg.route_back_of_apart hf h.lt_count h.apart hx)

theorem child (h : f.Spare (d + 1) target t) (hc : f.parent? c = some t) (he : f.parent? e = some target) :
    f.Spare d e c where
  lt_count := lt_count_of_parent? hc
  apart := fun _ hx hx' => h.apart ((Below.refl.down hc).trans hx) ((Below.refl.down he).trans hx')
  shallow := by
    intro q x hx
    have := h.shallow _ _ (hx.cons hc)
    simpa using this

end Spare

/-- **A template whose siblings differ by name.** -/
structure IsTemplate (f : Forest) (d target t : Nat) : Prop where
  lt_count : t < f.count
  apart : f.Apart t target
  distinct : f.DistinctBelow t
  shallow : ∀ q x, f.Route t q x → q.length < d

namespace IsTemplate

theorem spare (h : f.IsTemplate d target t) : f.Spare d target t := ⟨h.lt_count, h.apart, h.shallow⟩

theorem grown (h : f.IsTemplate d target t) (hg : Grown target f g) (hf : f.Linked) : g.IsTemplate d target t :=
  { h.spare.grown hg hf with distinct := hg.distinct_of_apart hf h.lt_count h.apart h.distinct }

theorem child (h : f.IsTemplate (d + 1) target t) (hc : f.parent? c = some t) (he : f.parent? e = some target) :
    f.IsTemplate d e c :=
  { h.spare.child hc he with distinct := h.distinct.mono (Below.refl.down hc) }

theorem node_eq (h : f.IsTemplate d target t) (hg : Grown target f g) : g.node t = f.node t :=
  hg.outside h.lt_count (h.apart .refl)

theorem content?_eq (h : f.IsTemplate d target t) (hg : Grown target f g) (hf : f.Linked) :
    g.content? t = f.content? t :=
  hg.content?_of_apart hf h.lt_count h.apart h.distinct

end IsTemplate

theorem filled_declareIf (hf : f.Linked) (hd : f.DistinctBelow e) (he : e < f.count) (c : Content) :
    Filled e (.single c) f (if (f.node e).autogenerated then f.modify e fun n => n.declare c.payload else f) := by
  cases hauto : (f.node e).autogenerated with
  | true => exact filled_declare hf hd he hauto
  | false => exact filled_keep hf hd hauto

/-- What one template does to a forest: the node that stands for it is named after it, and its places are filled. -/
structure SplicedOne (t target : Nat) (acc acc' : Forest × List NodeId) : Prop where
  filled : Filled target ((acc.1.content? t).shift [(acc.1.node t).name]) acc.1 acc'.1
  nodup : acc'.1.ChildrenNodup
  stands : ∃ e : Nat, acc'.2 = acc.2 ++ [e] ∧ acc'.1.Route target [(acc.1.node t).name] e

/-- The templates of one target, merged into it. -/
structure Spliceable (f : Forest) (d target : Nat) (ts : List Nat) : Prop where
  linked : f.Linked
  nodup : f.ChildrenNodup
  distinct : f.DistinctBelow target
  lt_count : target < f.count
  templates : ∀ t ∈ ts, f.IsTemplate d target t
  names : ts.Pairwise fun s t => (f.node s).name ≠ (f.node t).name

namespace Spliceable

theorem children (h : f.Spliceable (d + 1) target ts) (ht : t ∈ ts) (he : f.parent? e = some target) :
    f.Spliceable d e (f.children t) where
  linked := h.linked
  nodup := h.nodup
  distinct := h.distinct.mono (Below.refl.down he)
  lt_count := lt_count_of_parent? he
  templates := fun _ hc => (h.templates t ht).child (h.linked.mem_children.1 hc) he
  names := List.Pairwise.imp_of_mem (fun hc hc' hne hname =>
    hne ((h.templates t ht).distinct .refl (h.linked.mem_children.1 hc) (h.linked.mem_children.1 hc') hname))
      (h.nodup t)

theorem of_filled {o : Layer} (h : f.Spliceable d target ts) (hg : Filled target o f g) (hn : g.ChildrenNodup) :
    g.Spliceable d target ts where
  linked := hg.linked
  nodup := hn
  distinct := hg.distinct
  lt_count := Nat.lt_of_lt_of_le h.lt_count hg.count_le
  templates := fun t ht => (h.templates t ht).grown hg.toGrown h.linked
  names := List.Pairwise.imp_of_mem (fun hs ht hne => by
    rwa [(h.templates _ hs).node_eq hg.toGrown, (h.templates _ ht).node_eq hg.toGrown]) h.names

theorem tail (h : f.Spliceable d target (t :: ts)) : f.Spliceable d target ts where
  linked := h.linked
  nodup := h.nodup
  distinct := h.distinct
  lt_count := h.lt_count
  templates := fun s hs => h.templates s (List.mem_cons_of_mem _ hs)
  names := (List.pairwise_cons.1 h.names).2

theorem contents?_eq {o : Layer} (h : f.Spliceable d target ts) (hg : Filled target o f g) :
    g.contents? ts = f.contents? ts :=
  contents?_congr (fun t ht => by rw [(h.templates t ht).node_eq hg.toGrown])
    fun t ht => (h.templates t ht).content?_eq hg.toGrown h.linked

end Spliceable

variable (hsplice : ∀ {f : Forest} {ts : List Nat} {e : Nat}, f.Spliceable d e ts →
  Filled e (f.contents? ts) f (f.spliceWithin d ts e) ∧ (f.spliceWithin d ts e).ChildrenNodup)
include hsplice

theorem splicedOne (h : acc.1.Spliceable (d + 1) target ts) (ht : t ∈ ts) :
    SplicedOne t target acc (spliceOne d target acc t) := by
  unfold spliceOne
  split
  · rename_i e he
    obtain ⟨hparent, hname⟩ := h.linked.mem_childNamed? he
    have hroute : acc.1.Route target [(acc.1.node t).name] e := hname ▸ .single hparent
    have hch := h.children ht hparent
    have hdecl := filled_declareIf h.linked hch.distinct hch.lt_count (acc.1.node t).content
    have hn : (if (acc.1.node e).autogenerated then acc.1.modify e fun n => n.declare (acc.1.node t).payload
        else acc.1).ChildrenNodup := by
      split
      · exact childrenNodup_modify h.nodup fun _ hn => hn
      · exact h.nodup
    obtain ⟨hfill, hn⟩ := hsplice (hch.of_filled hdecl hn)
    rw [hch.contents?_eq hdecl] at hfill
    have hsame := (h.templates t ht).node_eq (hdecl.toGrown.mono (Below.refl.down hparent))
    dsimp only
    rw [children, show (acc.1.node t).payload = (acc.1.node t).content.payload from rfl, hsame]
    have hall :=
      (hdecl.trans h.linked hfill fun q => by cases q <;> simp [contents?, Layer.single]).of_eq content?_eq_or.symm
    exact ⟨hall.lift h.linked h.distinct hroute, hn, e, rfl, hall.route hroute⟩
  · rename_i hnew
    have hcopy := copied_graft (s := t) h.linked h.linked h.lt_count
    exact ⟨hcopy.filled h.nodup h.distinct (h.templates t ht).distinct hnew, hcopy.nodup h.nodup, _, rfl,
      hcopy.index ▸ hcopy.route⟩

theorem filled_foldl_spliceOne (h : acc.1.Spliceable (d + 1) target ts) :
    Filled target (acc.1.contents? ts) acc.1 (ts.foldl (spliceOne d target) acc).1 ∧
      (ts.foldl (spliceOne d target) acc).1.ChildrenNodup ∧
      ∃ es : List Nat, (ts.foldl (spliceOne d target) acc).2 = acc.2 ++ es ∧
        es.map (fun e => ((ts.foldl (spliceOne d target) acc).1.node e).name) = ts.map fun t =>
          (acc.1.node t).name := by
  induction ts generalizing acc with
  | nil => exact ⟨(Filled.refl h.linked h.distinct).of_eq (by funext q; cases q <;> rfl), h.nodup, [], by simp, rfl⟩
  | cons t ts ih =>
    have hone := splicedOne hsplice h List.mem_cons_self
    obtain ⟨e, hlist, hroute⟩ := hone.stands
    obtain ⟨p, -, hparent, hname⟩ := Route.of_snoc (q := []) hroute
    have hrest := h.tail.of_filled hone.filled hone.nodup
    obtain ⟨hfill, hn, es, hes, hmap⟩ := ih hrest
    rw [h.tail.contents?_eq hone.filled] at hfill
    obtain ⟨hne, -⟩ := List.pairwise_cons.1 h.names
    have hname' : ∀ s ∈ ts, (acc.1.node s).name ≠ (acc.1.node t).name := fun s hs => (hne s hs).symm
    refine ⟨(hone.filled.trans h.linked hfill (shift_eq_none_or hname')).of_eq (contents?_cons hname').symm,
      hn, e :: es, ?_, ?_⟩
    · rw [List.foldl_cons, hes, hlist, List.append_assoc]
      rfl
    · rw [List.foldl_cons, List.map_cons, List.map_cons, hfill.name (lt_count_of_parent? hparent), hname, hmap]
      refine congrArg _ (List.map_congr_left fun s hs => ?_)
      rw [(h.templates s (List.mem_cons_of_mem _ hs)).node_eq hone.filled.toGrown]

omit hsplice in
/-- **Merging templates fills their places**, each below its own name, and repeats no child. -/
theorem filled_spliceWithin (h : f.Spliceable d target ts) :
    Filled target (f.contents? ts) f (f.spliceWithin d ts target) ∧ (f.spliceWithin d ts target).ChildrenNodup := by
  induction d generalizing f ts target with
  | zero =>
    have hts : ts = [] :=
      List.eq_nil_iff_forall_not_mem.2 fun t ht => absurd ((h.templates t ht).shallow _ _ .here) (by simp)
    subst hts
    exact ⟨(Filled.refl h.linked h.distinct).of_eq (by funext q; cases q <;> rfl), h.nodup⟩
  | succ d ih =>
    obtain ⟨hfill, hn, es, hes, hmap⟩ :=
      filled_foldl_spliceOne ih (show Spliceable (f, ([] : List NodeId)).1 (d + 1) target ts from h)
    have hnames : (ts.map fun t => (f.node t).name).Nodup := List.pairwise_map.2 h.names
    have hes' : (ts.foldl (spliceOne d target) (f, [])).2.Nodup := by
      rw [hes, List.nil_append]
      exact List.Nodup.of_map _ (hmap ▸ hnames)
    rw [spliceWithin_succ]
    refine ⟨(hfill.trans h.linked (filled_reorder hfill.linked hfill.distinct _) fun q => .inr rfl).of_eq ?_,
      childrenNodup_reorder hn hes'⟩
    funext q
    rw [Option.or_none]

end Forest
end SignalCatalog
