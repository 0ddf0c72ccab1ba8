import SignalCatalog.Proofs.Expand.Joining
import SignalCatalog.Proofs.Forest.Front
import SignalCatalog.Proofs.Steps
/-!
# The order of merged templates

A template that is merged into a node leaves its children in the order of the template, the nodes that are beside it
after them.  The same holds for each of these children, as far down as the template reaches, be they there before or
copied.
-/
namespace SignalCatalog
namespace Forest

variable {o f g h : Forest} {p t c e x d : Nat} {ts ts' first first' : List Nat} {m m' : Nat → List Nat}
  {acc : Forest × List NodeId}

/-- **A subtree that is what it was**, the parent of its top aside. -/
def SameBelow (o f : Forest) (t : NodeId) : Prop := ∀ x, f.Below t x → SameAt o f x

theorem SameBelow.child (ht : SameBelow o f t) (hc : f.parent? c = some t) : SameBelow o f c :=
  fun x hx => ht x ((Below.refl.down hc).trans hx)

theorem SameBelow.grown (ht : SameBelow o f t) (hg : Grown p f g) (hf : f.Linked) (hlt : t < f.count)
    (hap : f.Apart t p) : SameBelow o g t := by
  rintro x ⟨q, hx⟩
  have hx := hg.route_back_of_apart hf hlt hap hx
  have hsame := ht x ⟨q, hx⟩
  have hnode := hg.outside (hx.lt_count hlt) (hap ⟨q, hx⟩)
  exact ⟨by rw [hnode, hsame.name], by rw [hnode, hsame.content], by rw [children, hnode]; exact hsame.children⟩

/-- **Templates that do not meet**: their names differ, and so do those of siblings below them. -/
def Differing (o : Forest) (ts : List NodeId) : Prop :=
  (∀ t ∈ ts, o.DistinctBelow t) ∧ ts.Pairwise fun s t => (o.node s).name ≠ (o.node t).name

theorem Differing.children (ho : o.Linked) (hn : o.ChildrenNodup) (ht : Differing o [t]) :
    Differing o (o.children t) := by
  have hd := ht.1 t List.mem_cons_self
  refine ⟨fun c hc => hd.mono (Below.refl.down (ho.mem_children.1 hc)), (hn t).imp_of_mem fun hc he hne hname => hne ?_⟩
  exact hd .refl (ho.mem_children.1 hc) (ho.mem_children.1 he) hname

theorem length_append_le_one {l l' : List Nat} (h : l.length ≤ 1) (h' : l'.length ≤ 1)
    (hmeet : ∀ c ∈ l, ∀ c' ∈ l', False) :
    (l ++ l').length ≤ 1 := by
  cases l with
  | nil => exact h'
  | cons c l =>
    cases l' with
    | nil => rwa [List.append_nil]
    | cons c' l' => exact (hmeet c List.mem_cons_self c' List.mem_cons_self).elim

/-- **Templates have been merged below a node**, whose own children are not yet in order.  `m` gives the template nodes
that were merged into a node, each at the path where it is in the template; for each of them in turn the children of the
node were put in order. -/
structure Fitted (o : Forest) (p : Nat) (ts first : List Nat) (m : Nat → List Nat) (f g : Forest) :
    Prop extends Grown p f g where
  stand : List.Forall₂ (fun t z => t ∈ m z) ts first
  child : ∀ z ∈ first, g.parent? z = some p
  path : ∀ y, ∀ c ∈ m y, ∃ t ∈ ts, ∃ r, o.Route t r c ∧ g.Route p ((o.node t).name :: r) y
  other : ∀ y, y ≠ p → Rearranged (fun c z => c ∈ m z) ((m y).map o.children) (f.children y) (g.children y)
  once : Differing o ts → ∀ y, (m y).length ≤ 1

namespace Fitted

theorem nil (hf : f.Linked) : Fitted o p [] [] (fun _ => []) f f where
  toGrown := .refl hf
  stand := .nil
  child := by simp
  path := by simp
  other := fun _ _ => .refl
  once := by simp

theorem target (hm : Fitted o p ts first m f g) : m p = [] := by
  refine List.eq_nil_iff_forall_not_mem.2 fun c hc => ?_
  obtain ⟨t, -, r, -, hr⟩ := hm.path p c hc
  exact absurd (hm.linked.route_self hr) (by simp)

theorem append (hm : Fitted o p ts first m f g) (hf : f.Linked) (hm' : Fitted o p ts' first' m' g h) :
    Fitted o p (ts ++ ts') (first ++ first') (fun y => m y ++ m' y) f h where
  toGrown := hm.toGrown.trans hf hm'.toGrown
  stand := List.rel_append (hm.stand.imp fun _ _ ht => List.mem_append_left _ ht)
    (hm'.stand.imp fun _ _ ht => List.mem_append_right _ ht)
  child := fun z hz => by
    rcases List.mem_append.1 hz with hz | hz
    · rw [hm'.parent? (lt_count_of_parent? (hm.child z hz)), hm.child z hz]
    · exact hm'.child z hz
  path := fun y c hc => by
    rcases List.mem_append.1 hc with hc | hc
    · obtain ⟨t, ht, r, hr, hy⟩ := hm.path y c hc
      exact ⟨t, List.mem_append_left _ ht, r, hr, hm'.toGrown.route hy⟩
    · obtain ⟨t, ht, r, hr, hy⟩ := hm'.path y c hc
      exact ⟨t, List.mem_append_right _ ht, r, hr, hy⟩
  other := fun y hy => by
    rw [List.map_append]
    exact ((hm.other y hy).mono fun _ _ hc => List.mem_append_left _ hc).append
      ((hm'.other y hy).mono fun _ _ hc => List.mem_append_right _ hc)
  once := fun hd y => by
    obtain ⟨hbelow, hnames⟩ := hd
    rw [List.forall_mem_append] at hbelow
    rw [List.pairwise_append] at hnames
    refine length_append_le_one (hm.once ⟨hbelow.1, hnames.1⟩ y)
      (hm'.once ⟨hbelow.2, hnames.2.1⟩ y) fun c hc c' hc' => ?_
    -- the one route to a node begins with one name
    obtain ⟨t, ht, r, -, hr⟩ := hm.path y c hc
    obtain ⟨t', ht', r', -, hr'⟩ := hm'.path y c' hc'
    exact hnames.2.2 t ht t' ht' (List.cons.inj (hm'.linked.route_unique (hm'.toGrown.route hr) hr')).1

/-- **The children of a template are merged into the node that stands for it**, which has come in or was there. -/
theorem wrap (hm : Fitted o e (o.children t) first m g h) (hown : h.children e = front first (g.children e))
    (ho : o.Linked) (hn : o.ChildrenNodup) (hg : Grown p f g) (hf : f.Linked)
    (hsame : ∀ y, y ≠ p → g.children y = f.children y) (he : g.parent? e = some p)
    (hname : (g.node e).name = (o.node t).name) :
    Fitted o p [t] [e] (fun y => (if y = e then [t] else []) ++ m y) f h where
  toGrown := hg.trans hf (hm.toGrown.mono (Below.refl.down he))
  stand := .cons (by simp) .nil
  child := fun z hz => by rw [List.mem_singleton.1 hz, hm.parent? (lt_count_of_parent? he), he]
  path := fun y c hc => by
    have hparent : h.parent? e = some p := by rw [hm.parent? (lt_count_of_parent? he), he]
    have hroute : (h.node e).name = (o.node t).name := by rw [hm.name (lt_count_of_parent? he), hname]
    refine ⟨t, List.mem_cons_self, ?_⟩
    rcases List.mem_append.1 hc with hc | hc
    · split at hc
      · rename_i hye
        rw [List.mem_singleton.1 hc, hye, ← hroute]
        exact ⟨[], .here, .single hparent⟩
      · cases hc
    · obtain ⟨s, hs, r, hr, hy⟩ := hm.path y c hc
      exact ⟨_, hr.cons (ho.mem_children.1 hs), hroute ▸ hy.cons hparent⟩
  other := fun y hy => by
    rw [← hsame y hy]
    by_cases hye : y = e
    · subst hye
      rw [if_pos rfl, hm.target, List.append_nil, List.map_singleton, hown]
      exact .single (hm.stand.imp fun _ _ hc => List.mem_append_right _ hc)
    · rw [if_neg hye, List.nil_append]
      exact (hm.other y hye).mono fun _ _ hc => List.mem_append_right _ hc
  once := fun hdiff y => by
    by_cases hye : y = e
    · subst hye
      simp [hm.target]
    · simpa [hye] using hm.once (hdiff.children ho hn) y

theorem reorder (hm : Fitted o p ts first m f g) (hf : f.Linked) : Fitted o p ts first m f (g.reorder p first) :=
  have hshape := sameShape_reorder (f := g) (p := p) first
  { toGrown := hm.toGrown.trans hf (hshape.grown hm.linked)
    stand := hm.stand
    child := fun z hz => by rw [hshape.parent?, hm.child z hz]
    path := fun y c hc => by
      obtain ⟨t, ht, r, hr, hy⟩ := hm.path y c hc
      exact ⟨t, ht, r, hr, hshape.route_iff.2 hy⟩
    other := fun y hy => by
      rw [children_reorder_other hy]
      exact hm.other y hy
    once := hm.once }

end Fitted

/-! ## Copies -/

theorem fitted_foldl_graft {source : Forest} (cs : List Nat)
    (hcopy : ∀ {f : Forest} {c p : Nat}, f.Linked → p < f.count → c ∈ cs →
      ∃ m, Fitted o p [c] [f.count] m f (source.graftWithin d f c p).1 ∧
      (source.graftWithin d f c p).1.children p = f.children p ++ [f.count])
    (hf : f.Linked) (hp : p < f.count) :
    ∃ ids m, Fitted o p cs ids m f (cs.foldl (fun f c => (source.graftWithin d f c p).1) f) ∧
      (cs.foldl (fun f c => (source.graftWithin d f c p).1) f).children p = f.children p ++ ids := by
  induction cs generalizing f with
  | nil => exact ⟨[], _, .nil hf, (List.append_nil _).symm⟩
  | cons c cs ih =>
    obtain ⟨m, hone, hown⟩ := hcopy hf hp List.mem_cons_self
    obtain ⟨ids, m', hrest, hown'⟩ :=
      ih (fun hf hp hc => hcopy hf hp (List.mem_cons_of_mem _ hc)) hone.linked (Nat.lt_of_lt_of_le hp hone.count_le)
    exact ⟨_, _, hone.append hf hrest, by rw [List.foldl_cons, hown', hown, List.append_assoc]⟩

section Original

variable (ho : o.Linked) (hn : o.ChildrenNodup)
include ho hn

/-- **A new node that gets copies of all children** of a node of the original. -/
theorem fitted_of_children {source : Forest} {s : Nat} {ids : List Nat} (hsame : SameAt o source s)
    (hf : f.Linked) (hp : p < f.count)
    (hm : Fitted o f.count (source.children s) ids m (f.addChild p (source.node s).alone).1 g)
    (hown : g.children f.count = (f.addChild p (source.node s).alone).1.children f.count ++ ids) :
    ∃ m, Fitted o p [s] [f.count] m f g ∧ g.children p = f.children p ++ [f.count] := by
  have hnew := grown_addChild (n := (source.node s).alone) hf hp rfl rfl
  have hparent : (f.addChild p (source.node s).alone).1.parent? f.count = some p := by
    rw [parent?_addChild hp rfl rfl, if_pos rfl]
  have hkids (y : Nat) : (f.addChild p (source.node s).alone).1.children y =
      if y = p then f.children p ++ [f.count] else f.children y :=
    children_addChild hp rfl rfl
  have hempty : (f.addChild p (source.node s).alone).1.children f.count = [] := by
    rw [hkids, if_neg (by omega), children_of_count_le (Nat.le_refl _)]
  rw [hempty, List.nil_append] at hown
  rw [hsame.children] at hm
  refine ⟨_, hm.wrap (by rw [hown, hempty, front_nil]) ho hn hnew hf
    (fun y hy => by rw [hkids, if_neg hy]) hparent ?_, ?_⟩
  · rw [name_addChild hp rfl rfl, if_pos rfl]
    exact hsame.name
  · rw [children, hm.outside (Nat.lt_of_lt_of_le hp hnew.count_le) (hnew.linked.not_below_parent hparent)]
    exact (hkids p).trans (if_pos rfl)

theorem fitted_graftWithin {source : Forest} {s : Nat} (hs : source.Linked) (hint : SameBelow o source s)
    (hdepth : ∀ q x, source.Route s q x → q.length ≤ d) (hf : f.Linked) (hp : p < f.count) :
    ∃ m, Fitted o p [s] [f.count] m f (source.graftWithin d f s p).1 ∧
    (source.graftWithin d f s p).1.children p = f.children p ++ [f.count] := by
  induction d generalizing f s p with
  | zero =>
    have hleaf := Route.children_eq_nil hs hdepth
    have hall : Fitted o f.count (source.children s) [] (fun _ => []) (f.addChild p (source.node s).alone).1
        (f.addChild p (source.node s).alone).1 := by
      rw [hleaf]
      exact .nil (grown_addChild hf hp rfl rfl).linked
    exact fitted_of_children ho hn (hint s .refl) hf hp hall (List.append_nil _).symm
  | succ d ih =>
    obtain ⟨ids, m, hall, hown⟩ := fitted_foldl_graft (o := o) (source.children s) (fun hf hp hc => by
        have hparent := hs.mem_children.1 hc
        exact ih (hint.child hparent) (Route.length_le_child hdepth hparent) hf hp)
      (grown_addChild (n := (source.node s).alone) hf hp rfl rfl).linked
        (show f.count < (f.addChild p (source.node s).alone).1.count by simp)
    exact fitted_of_children ho hn (hint s .refl) hf hp hall hown

/-! ## Templates merged below a target -/

section Step

variable (hsplice : ∀ {f : Forest} {ts : List Nat} {e : Nat},
  f.Linked → e < f.count → (∀ t ∈ ts, f.Spare d e t ∧ SameBelow o f t) →
  ∃ first m, Fitted o e ts first m f (f.spliceWithin d ts e) ∧
  (f.spliceWithin d ts e).children e = front first (f.children e))
include hsplice

theorem fitted_spliceOne (hf : acc.1.Linked) (hp : p < acc.1.count) (ht : acc.1.Spare (d + 1) p t)
    (hint : SameBelow o acc.1 t) :
    ∃ e m, (spliceOne d p acc t).2 = acc.2 ++ [e] ∧ Fitted o p [t] [e] m acc.1 (spliceOne d p acc t).1 ∧
      ∃ added ⊆ [e], (spliceOne d p acc t).1.children p = acc.1.children p ++ added := by
  unfold spliceOne
  split
  · rename_i e he
    obtain ⟨hparent, hname⟩ := hf.mem_childNamed? he
    have hlt := lt_count_of_parent? hparent
    have hdecl := grown_declareIf (e := e) hf (acc.1.node t).payload
    have hkids := children_declareIf acc.1 e (acc.1.node t).payload
    have hkept {g : Forest} (hg : Grown e acc.1 g) : ∀ c ∈ acc.1.children t, g.Spare d e c ∧
        SameBelow o g c := fun c hc => by
      have hchild := hf.mem_children.1 hc
      have hspare := ht.child hchild hparent
      exact ⟨hspare.grown hg hf, (hint.child hchild).grown hg hf hspare.lt_count hspare.apart⟩
    obtain ⟨first, m, hm, hown⟩ := hsplice hdecl.linked (Nat.lt_of_lt_of_le hlt hdecl.count_le) (hkept hdecl)
    dsimp only
    rw [hkids]
    rw [(hint t .refl).children] at hm hown ⊢
    have hall := hm.wrap hown ho hn (hdecl.mono (Below.refl.down hparent)) hf (fun y _ => hkids y)
      (by rw [hdecl.parent? hlt, hparent]) (by rw [hdecl.name hlt, hname, (hint t .refl).name])
    refine ⟨e, _, rfl, hall, [], List.nil_subset _, ?_⟩
    rw [List.append_nil, ← hkids p, children, hm.outside (Nat.lt_of_lt_of_le hp hdecl.count_le)]
    · rfl
    · exact fun hb => hf.not_below_parent hparent ((hdecl.below_iff hf hp).1 hb)
  · obtain ⟨m, hm, hown⟩ := fitted_graftWithin ho hn hf hint (fun _ _ hx => hf.length_le_count hx) hf hp
    have hindex : (acc.1.copySubtree t p).2 = acc.1.count := (copied_graft hf hf hp).index
    rw [hindex]
    exact ⟨_, m, rfl, hm, _, List.Subset.refl _, hown⟩

theorem fitted_foldl_spliceOne (acc : Forest × List NodeId) (hf : acc.1.Linked) (hp : p < acc.1.count)
    (hts : ∀ t ∈ ts, acc.1.Spare (d + 1) p t ∧ SameBelow o acc.1 t) :
    ∃ first m, (ts.foldl (spliceOne d p) acc).2 = acc.2 ++ first ∧
      Fitted o p ts first m acc.1 (ts.foldl (spliceOne d p) acc).1 ∧
        ∃ added ⊆ first, (ts.foldl (spliceOne d p) acc).1.children p = acc.1.children p ++ added := by
  induction ts generalizing acc with
  | nil => exact ⟨[], _, (List.append_nil _).symm, .nil hf, [], List.Subset.refl _, (List.append_nil _).symm⟩
  | cons t ts ih =>
    obtain ⟨ht, hts⟩ := List.forall_mem_cons.1 hts
    obtain ⟨e, m, hlist, hone, added, hadded, hown⟩ := fitted_spliceOne ho hn hsplice hf hp ht.1 ht.2
    obtain ⟨first, m', hlist', hrest, added', hadded', hown'⟩ :=
      ih (spliceOne d p acc t) hone.linked (Nat.lt_of_lt_of_le hp hone.count_le)
      fun c hc => ⟨(hts c hc).1.grown hone.toGrown hf,
        (hts c hc).2.grown hone.toGrown hf (hts c hc).1.lt_count (hts c hc).1.apart⟩
    refine ⟨[e] ++ first, _, by rw [List.foldl_cons, hlist', hlist, List.append_assoc], hone.append hf hrest,
      added ++ added', ?_, ?_⟩
    · exact List.append_subset.2 ⟨List.subset_append_of_subset_left _ hadded,
        List.subset_append_of_subset_right _ hadded'⟩
    · rw [List.foldl_cons, hown', hown, List.append_assoc]

end Step

/-- **Templates merged below a target** come first among its children, and so on below them. -/
theorem fitted_spliceWithin (hf : f.Linked) (hp : p < f.count) (hts : ∀ t ∈ ts, f.Spare d p t ∧ SameBelow o f t) :
    ∃ first m, Fitted o p ts first m f (f.spliceWithin d ts p) ∧
    (f.spliceWithin d ts p).children p = front first (f.children p) := by
  induction d generalizing f p ts with
  | zero =>
    obtain rfl : ts = [] :=
      List.eq_nil_iff_forall_not_mem.2 fun t ht => absurd ((hts t ht).1.shallow _ _ .here) (by simp)
    exact ⟨[], _, .nil hf, (List.filter_eq_self.2 fun _ _ => rfl).symm⟩
  | succ d ih =>
    obtain ⟨first, m, hlist, hall, added, hadded, hown⟩ := fitted_foldl_spliceOne ho hn ih (f, []) hf hp hts
    rw [spliceWithin_succ, hlist, List.nil_append]
    refine ⟨first, m, hall.reorder hf, ?_⟩
    rw [children_reorder fun z hz => hall.linked.mem_children.2 (hall.child z hz), hown, front_append hadded]

end Original

/-! ## Templates merged below many targets -/

theorem Grown.apart_of_apart (hg : Grown p f g) (hf : f.Linked) (hx : x < f.count) (he : e < f.count)
    (hap : f.Apart x e) : g.Apart x e := by
  rintro y ⟨q, hy⟩ hy'
  rcases hy.below_or_above hy' with hb | hb
  · exact hap ((hg.below_iff hf he).1 hb) .refl
  · exact hap .refl ((hg.below_iff hf hx).1 hb)

/-- **Templates have been merged below each of some targets.** -/
structure Dealt (o : Forest) (n : Nat) (ts targets : List Nat) (m : Nat → List Nat) (f g : Forest) :
    Prop extends Grown n f g where
  lead : ∀ x ∈ targets, ∃ first, List.Forall₂ (fun t z => t ∈ m z) ts first ∧ g.children x = front first (f.children x)
  path : ∀ y, ∀ c ∈ m y, ∃ x ∈ targets, ∃ t ∈ ts, ∃ r, o.Route t r c ∧ g.Route x ((o.node t).name :: r) y
  other : ∀ y ∉ targets, Rearranged (fun c z => c ∈ m z) ((m y).map o.children) (f.children y) (g.children y)
  once : Differing o ts → ∀ y, (m y).length ≤ 1

namespace Dealt

variable {n : Nat} {targets : List Nat}

theorem nil (hf : f.Linked) : Dealt o n ts [] (fun _ => []) f f where
  toGrown := .refl hf
  lead := by simp
  path := by simp
  other := fun _ _ => .refl
  once := by simp

theorem eq_nil_of_not_below (hm : Dealt o n ts targets m f g) {y : Nat} (hy : ∀ x ∈ targets, ¬ g.Below x y) :
    m y = [] :=
  List.eq_nil_iff_forall_not_mem.2 fun c hc =>
    let ⟨x, hx, _, _, _, _, hr⟩ := hm.path y c hc
    hy x hx ⟨_, hr⟩

theorem children_eq (hm : Dealt o n ts targets m f g) {y : Nat} (hy : ∀ x ∈ targets, ¬ g.Below x y) :
    g.children y = f.children y := by
  have hrest := hm.other y fun hmem => hy y hmem .refl
  rw [hm.eq_nil_of_not_below hy] at hrest
  exact hrest.eq_of_nil

theorem cons (hm : Fitted o x ts first m f g) (hown : g.children x = front first (f.children x))
    (hf : f.Linked) (hx : f.Below n x) (hlt : ∀ y ∈ x :: targets, y < f.count) (hapart : ∀ y ∈ targets, f.Apart x y)
    (hrest : Dealt o n ts targets m' g h) :
    Dealt o n ts (x :: targets) (fun y => m y ++ m' y) f h := by
  have hg := hm.toGrown
  have hg' := hrest.toGrown
  have hcount := hg.count_le
  obtain ⟨hxlt, hlts⟩ := List.forall_mem_cons.1 hlt
  have hside : ∀ y ∈ targets, h.Apart x y := fun y hy =>
    hg'.apart_of_apart hg.linked (Nat.lt_of_lt_of_le hxlt hcount) (Nat.lt_of_lt_of_le (hlts y hy) hcount)
      (hg.apart_of_apart hf hxlt (hlts y hy) (hapart y hy))
  have hold (y : Nat) (hy : y ∈ targets) : g.children y = f.children y :=
    congrArg Node.children (hg.outside (hlts y hy) fun hb => hapart y hy hb .refl)
  refine ⟨(hg.mono hx).trans hf hg', fun y hy => ?_, fun y c hc => ?_, fun y hy => ?_, fun hd y => ?_⟩
  · rcases List.mem_cons.1 hy with rfl | hy
    · refine ⟨first, hm.stand.imp fun _ _ hc => List.mem_append_left _ hc, ?_⟩
      rw [hrest.children_eq fun e he hb => hside e he .refl hb, hown]
    · obtain ⟨first', hstand, hlead⟩ := hrest.lead y hy
      exact ⟨first', hstand.imp fun _ _ hc => List.mem_append_right _ hc, by rw [hlead, hold y hy]⟩
  · rcases List.mem_append.1 hc with hc | hc
    · obtain ⟨t, ht, r, hr, hy⟩ := hm.path y c hc
      exact ⟨x, List.mem_cons_self, t, ht, r, hr, hg'.route hy⟩
    · obtain ⟨e, he, t, ht, r, hr, hy⟩ := hrest.path y c hc
      exact ⟨e, List.mem_cons_of_mem _ he, t, ht, r, hr, hy⟩
  · obtain ⟨hne, hy⟩ := not_or.1 (mt List.mem_cons.2 hy)
    rw [List.map_append]
    exact ((hm.other y hne).mono fun _ _ hc => List.mem_append_left _ hc).append
      ((hrest.other y hy).mono fun _ _ hc => List.mem_append_right _ hc)
  · refine length_append_le_one (hm.once hd y) (hrest.once hd y) fun c hc c' hc' => ?_
    obtain ⟨_, -, _, -, hr⟩ := hm.path y c hc
    obtain ⟨e, he, _, -, _, -, hr'⟩ := hrest.path y c' hc'
    exact hside e he ⟨_, hg'.route hr⟩ ⟨_, hr'⟩

end Dealt

/-- **Templates merged below many targets** come first among the children of each. -/
theorem dealt_foldl_splice {n : Nat} {targets : List Nat} (ho : o.Linked) (hn : o.ChildrenNodup)
    (hf : f.Linked) (hlt : n < f.count) (hts : ∀ t ∈ ts, t < f.count ∧ f.Apart t n ∧ SameBelow o f t)
    (htargets : ∀ x ∈ targets, f.Below n x) (hapart : targets.Pairwise f.Apart) :
    ∃ m, Dealt o n ts targets m f (targets.foldl (fun f x => f.splice ts x) f) := by
  induction targets generalizing f with
  | nil => exact ⟨_, .nil hf⟩
  | cons x targets ih =>
    obtain ⟨hx, hbelow⟩ := List.forall_mem_cons.1 htargets
    obtain ⟨hxs, hrest⟩ := List.pairwise_cons.1 hapart
    have hspare : ∀ t ∈ ts, f.Spare (f.count + 1) x t ∧ SameBelow o f t := fun t ht =>
      ⟨⟨(hts t ht).1, fun y hy hxy => (hts t ht).2.1 hy (hx.trans hxy),
        fun _ _ hr => Nat.lt_succ_of_le (hf.length_le_count hr)⟩, (hts t ht).2.2⟩
    obtain ⟨first, m, hm, hown⟩ := fitted_spliceWithin ho hn hf (hx.lt_count hlt) hspare
    have hg := hm.toGrown.mono hx
    obtain ⟨m', hall⟩ := ih hg.linked (Nat.lt_of_lt_of_le hlt hg.count_le)
      (fun t ht => ⟨Nat.lt_of_lt_of_le (hts t ht).1 hg.count_le, hg.apart hf (hts t ht).1 (hts t ht).2.1,
        (hts t ht).2.2.grown hg hf (hts t ht).1 (hts t ht).2.1⟩)
      (fun y hy => hg.below (hbelow y hy))
      (hrest.imp_of_mem fun hy hz hyz => hg.apart_of_apart hf ((hbelow _ hy).lt_count hlt)
        ((hbelow _ hz).lt_count hlt) hyz)
    exact ⟨_, .cons hm hown hf hx (fun y hy => (htargets y hy).lt_count hlt) hxs hall⟩

end Forest
end SignalCatalog
