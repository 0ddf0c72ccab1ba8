import SignalCatalog.Proofs.Forest.Fill
import SignalCatalog.Proofs.Forest.Subtree
/-!
# New children and copies

A new child fills one place, a grafted subtree fills the places that its source holds, below its own name.
-/
namespace SignalCatalog

namespace Layer

variable {c : Content} {p q : List String}

theorem single_shift_self : (single c).shift p p = some c := by
  have := shift_append (l := single c) p []
  rwa [List.append_nil] at this

theorem single_shift_of_ne (h : q ≠ p) : (single c).shift p q = none := by
  cases hs : (single c).shift p q with
  | none => rfl
  | some d =>
    obtain ⟨r, rfl, hr⟩ := shift_eq_some.1 hs
    cases r with
    | nil => exact absurd (List.append_nil p) h
    | cons => cases hr

end Layer

namespace Forest

variable {f g source : Forest} {p x : Nat} {n : Node} {name : String} {q : List String}

theorem childNamed?_eq_none_iff : f.childNamed? p name = none ↔ f.content? p [name] = none := by
  rw [content?_cons]
  cases f.childNamed? p name <;> simp

/-! ## A new child -/

theorem parent?_addChild (hp : p < f.count) (hn : n.parent = none) (hc : n.children = []) :
    (f.addChild p n).1.parent? x = if x = f.count then some p else f.parent? x := by
  rw [parent?, node_addChild hp hn hc]
  split
  · rfl
  · split <;> rfl

theorem children_addChild (hp : p < f.count) (hn : n.parent = none) (hc : n.children = []) :
    (f.addChild p n).1.children x = if x = p then f.children p ++ [f.count] else f.children x := by
  rw [children, node_addChild hp hn hc]
  by_cases hx : x = f.count
  · rw [if_pos hx, if_neg (by omega), children_of_count_le (by omega), ← hc]
  · rw [if_neg hx]
    by_cases hxp : x = p
    · rw [if_pos hxp, if_pos hxp, hxp]
    · rw [if_neg hxp, if_neg hxp]
      rfl

theorem linked_addChild (hf : f.Linked) (hp : p < f.count) (hn : n.parent = none) (hc : n.children = []) :
    (f.addChild p n).1.Linked where
  mem_children := by
    intro q c
    rw [children_addChild hp hn hc, parent?_addChild hp hn hc]
    by_cases hq : q = p
    · subst hq
      rw [if_pos rfl, List.mem_append, List.mem_singleton, hf.mem_children]
      by_cases hcc : c = f.count <;> simp [hcc]
    · rw [if_neg hq, hf.mem_children]
      by_cases hcc : c = f.count
      · rw [hcc, if_pos rfl, parent?_of_count_le (Nat.le_refl _)]
        simp [Ne.symm hq]
      · rw [if_neg hcc]
  ranked := by
    obtain ⟨rank, hrank⟩ := hf.ranked
    refine ⟨fun x => if x = f.count then rank p + 1 else rank x, fun {c q} h => ?_⟩
    rw [parent?_addChild hp hn hc] at h
    by_cases hcc : c = f.count
    · rw [if_pos hcc] at h
      cases h
      dsimp only
      rw [if_pos hcc, if_neg (by omega)]
      omega
    · rw [if_neg hcc] at h
      have := hf.lt_count_parent h
      dsimp only
      rw [if_neg hcc, if_neg (by omega)]
      exact hrank h

theorem name_addChild (hp : p < f.count) (hn : n.parent = none) (hc : n.children = []) :
    ((f.addChild p n).1.node x).name = if x = f.count then n.name else (f.node x).name := by
  rw [node_addChild hp hn hc]
  split
  · rfl
  · split <;> rfl

theorem grown_addChild (hf : f.Linked) (hp : p < f.count) (hn : n.parent = none) (hc : n.children = []) :
    Grown p f (f.addChild p n).1 where
  linked := linked_addChild hf hp hn hc
  count_le := by simp
  parent? := fun hx => by rw [parent?_addChild hp hn hc, if_neg (by omega)]
  name := fun hx => by rw [name_addChild hp hn hc, if_neg (by omega)]
  outside := by
    intro _ hx hb
    rw [node_addChild hp hn hc, if_neg (by omega), if_neg (by rintro rfl; exact hb .refl)]
  fresh := fun {x} hx hx' => by
    rw [count_addChild] at hx'
    obtain rfl : x = f.count := by omega
    exact Below.refl.down (by rw [parent?_addChild hp hn hc, if_pos rfl])

theorem route_addChild (hp : p < f.count) (hn : n.parent = none) (hc : n.children = []) :
    (f.addChild p n).1.Route p [n.name] f.count := by
  have h :=
    Route.single (f := (f.addChild p n).1) (p := p) (c := f.count) (by rw [parent?_addChild hp hn hc, if_pos rfl])
  rwa [name_addChild hp hn hc, if_pos rfl] at h

theorem distinct_addChild (hf : f.Linked) (hd : f.DistinctBelow p) (hp : p < f.count) (hn : n.parent = none)
    (hc : n.children = []) (hnew : f.childNamed? p n.name = none) : (f.addChild p n).1.DistinctBelow p := by
  have hname := hf.childNamed?_eq_none.1 hnew
  have hg := grown_addChild hf hp hn hc
  have hchild : (f.addChild p n).1.parent? f.count = some p := by rw [parent?_addChild hp hn hc, if_pos rfl]
  intro y c d hy hcy hdy hcd
  have hold : ∀ {c : Nat}, c ≠ f.count → (f.addChild p n).1.parent? c = some y → f.parent? c = some y := by
    intro _ hne h
    rwa [parent?_addChild hp hn hc, if_neg hne] at h
  rw [name_addChild hp hn hc, name_addChild hp hn hc] at hcd
  by_cases hcc : c = f.count <;> by_cases hdd : d = f.count
  · rw [hcc, hdd]
  · rw [if_pos hcc, if_neg hdd] at hcd
    rw [hcc, hchild] at hcy
    cases hcy
    exact absurd hcd.symm (hname d (hold hdd hdy))
  · rw [if_neg hcc, if_pos hdd] at hcd
    rw [hdd, hchild] at hdy
    cases hdy
    exact absurd hcd (hname c (hold hcc hcy))
  · rw [if_neg hcc, if_neg hdd] at hcd
    have hyf := hf.lt_count_parent (hold hcc hcy)
    exact hd ((hg.below_iff hf hyf).1 hy) (hold hcc hcy) (hold hdd hdy) hcd

theorem filled_addChild (hf : f.Linked) (hd : f.DistinctBelow p) (hp : p < f.count) (hn : n.parent = none)
    (hc : n.children = []) (hnew : f.childNamed? p n.name = none) :
    Filled p ((Layer.single n.content).shift [n.name]) f (f.addChild p n).1 where
  toGrown := grown_addChild hf hp hn hc
  distinct := distinct_addChild hf hd hp hn hc hnew
  content := by
    have hg := grown_addChild hf hp hn hc
    have hgd := distinct_addChild hf hd hp hn hc hnew
    have hself := route_addChild hp hn hc
    funext q
    by_cases hq : q = [n.name]
    · subst hq
      rw [content?_of_route hg.linked hgd hself, Layer.fill_of_some Layer.single_shift_self,
        childNamed?_eq_none_iff.1 hnew, node_addChild hp hn hc, if_pos rfl]
      rfl
    · rw [Layer.fill_of_none (Layer.single_shift_of_ne hq)]
      have hcontent : ∀ {x : Nat}, x < f.count → ((f.addChild p n).1.node x).content =
          (f.node x).content := fun {x} hx => by
        rw [node_addChild hp hn hc, if_neg (by omega)]
        split <;> rfl
      refine Option.ext fun c => ?_
      rw [content?_eq_some hg.linked hgd, content?_eq_some hf hd]
      constructor
      · rintro ⟨x, hx, rfl⟩
        have hxlt := hx.lt_count (by rw [count_addChild]; omega)
        rw [count_addChild] at hxlt
        have hne : x ≠ f.count := by
          rintro rfl
          exact hq (hg.linked.route_unique hx hself)
        have hxf : x < f.count := by omega
        exact ⟨x, hg.route_back hf hx hxf, (hcontent hxf).symm⟩
      · rintro ⟨x, hx, rfl⟩
        exact ⟨x, hg.route hx, hcontent (hx.lt_count hp)⟩

theorem childrenNodup_addChild (hf : f.Linked) (hs : f.ChildrenNodup) (hp : p < f.count) (hn : n.parent = none)
    (hc : n.children = []) : (f.addChild p n).1.ChildrenNodup := by
  intro x
  rw [children_addChild hp hn hc]
  split
  · refine List.nodup_append.2 ⟨hs p, List.nodup_singleton _, fun y hy z hz => ?_⟩
    have := lt_count_of_parent? (hf.mem_children.1 hy)
    rw [List.mem_singleton.1 hz]
    exact Nat.ne_of_lt this
  · exact hs x

/-! ## Copies -/

variable {s d : Nat} {cs : List Nat}

theorem content?_eq_or :
    source.content? s = fun q => (Layer.single (source.node s).content q).or
      (source.contents? (source.children s) q) := by
  funext q
  cases q with
  | nil => rfl
  | cons name q => exact contents?_children.symm

/-- **What a copy makes of a forest**: its index is new, it stands below the parent under its own name, and the places
of the source are filled there. -/
structure Copied (source : Forest) (s p : Nat) (f : Forest) (r : Forest × NodeId) : Prop where
  index : r.2 = f.count
  grown : Grown p f r.1
  route : r.1.Route p [(source.node s).name] f.count
  nodup : f.ChildrenNodup → r.1.ChildrenNodup
  filled : source.ChildrenNodup → f.DistinctBelow p → source.DistinctBelow s →
    f.childNamed? p (source.node s).name = none → Filled p ((source.content? s).shift [(source.node s).name]) f r.1

theorem grown_foldl_graft (hcopy : ∀ {f : Forest} {c p : Nat}, f.Linked → p < f.count → c ∈ cs →
      Copied source c p f (source.graftWithin d f c p)) (hf : f.Linked) (hp : p < f.count) :
    Grown p f (cs.foldl (fun f c => (source.graftWithin d f c p).1) f) ∧
      (f.ChildrenNodup → (cs.foldl (fun f c => (source.graftWithin d f c p).1) f).ChildrenNodup) := by
  induction cs generalizing f with
  | nil => exact ⟨.refl hf, id⟩
  | cons c cs ih =>
    have hc := hcopy hf hp List.mem_cons_self
    have hrest := ih (fun hf hp hm => hcopy hf hp (List.mem_cons_of_mem _ hm)) hc.grown.linked
      (Nat.lt_of_lt_of_le hp hc.grown.count_le)
    exact ⟨hc.grown.trans hf hrest.1, fun hn => hrest.2 (hc.nodup hn)⟩

theorem filled_foldl_graft (hcopy : ∀ {f : Forest} {c p : Nat}, f.Linked → p < f.count → c ∈ cs →
      Copied source c p f (source.graftWithin d f c p))
    (hsn : source.ChildrenNodup) (hf : f.Linked) (hd : f.DistinctBelow p) (hp : p < f.count)
    (hsd : ∀ c ∈ cs, source.DistinctBelow c)
    (hnames : cs.Pairwise fun c e => (source.node c).name ≠ (source.node e).name)
    (hnew : ∀ c ∈ cs, f.childNamed? p (source.node c).name = none) :
    Filled p (source.contents? cs) f (cs.foldl (fun f c => (source.graftWithin d f c p).1) f) := by
  induction cs generalizing f with
  | nil => exact (Filled.refl hf hd).of_eq (by funext q; cases q <;> rfl)
  | cons c cs ih =>
    obtain ⟨hne, hnames⟩ := List.pairwise_cons.1 hnames
    have hc := hcopy hf hp List.mem_cons_self
    have hcf := hc.filled hsn hd (hsd c List.mem_cons_self) (hnew c List.mem_cons_self)
    have hrest := ih (fun hf hp hm => hcopy hf hp (List.mem_cons_of_mem _ hm)) hcf.linked hcf.distinct
      (Nat.lt_of_lt_of_le hp hcf.count_le) (fun e he => hsd e (List.mem_cons_of_mem _ he)) hnames (fun e he => by
        have hold := childNamed?_eq_none_iff.1 (hnew e (List.mem_cons_of_mem _ he))
        rw [childNamed?_eq_none_iff, hcf.content, Layer.fill_eq_none]
        exact ⟨hold, by rw [Layer.shift, if_neg (hne e he)]⟩)
    exact (hcf.trans hf hrest (shift_eq_none_or fun e he => (hne e he).symm)).of_eq
      (contents?_cons fun e he => (hne e he).symm).symm

theorem copied_of_children (hs : source.Linked) (hf : f.Linked) (hp : p < f.count)
    (hcopy : ∀ {f : Forest} {c p : Nat}, f.Linked → p < f.count → c ∈ source.children s →
      Copied source c p f (source.graftWithin d f c p)) :
    Copied source s p f
      ((source.children s).foldl (fun g c => (source.graftWithin d g c f.count).1)
        (f.addChild p (source.node s).alone).1, f.count) := by
  have hadd := grown_addChild (n := (source.node s).alone) hf hp rfl rfl
  have hroute := route_addChild (n := (source.node s).alone) hp rfl rfl
  have hlt : f.count < (f.addChild p (source.node s).alone).1.count := by simp
  obtain ⟨hgrown, hnodup⟩ := grown_foldl_graft hcopy hadd.linked hlt
  refine ⟨rfl, hadd.trans hf (hgrown.mono ⟨_, hroute⟩), hgrown.route hroute,
    fun hn => hnodup (childrenNodup_addChild hf hn hp rfl rfl), fun hsn hd hsd hnew => ?_⟩
  have hfill := filled_addChild (n := (source.node s).alone) hf hd hp rfl rfl hnew
  have hchild : ∀ {c : Nat}, c ∈ source.children s → source.parent? c = some s := hs.mem_children.1
  have hnames : (source.children s).Pairwise fun c e => (source.node c).name ≠ (source.node e).name :=
    List.Pairwise.imp_of_mem (fun hc he hne hname => hne (hsd .refl (hchild hc) (hchild he) hname)) (hsn s)
  have hempty : ∀ name, (f.addChild p (source.node s).alone).1.childNamed? f.count name = none := by
    intro name
    rw [childNamed?, children_addChild hp rfl rfl, if_neg (by omega), children_of_count_le (Nat.le_refl _)]
    rfl
  have hrest := filled_foldl_graft hcopy hsn hadd.linked (hfill.distinct.mono ⟨_, hroute⟩) hlt
    (fun c hc => hsd.mono (Below.refl.down (hchild hc))) hnames fun c _ => hempty _
  refine (hfill.trans hf (hrest.lift hadd.linked hfill.distinct hroute) fun q => ?_).of_eq ?_
  · by_cases hq : q = [(source.node s).name]
    · rw [hq]
      exact .inr (Layer.shift_append (l := source.contents? (source.children s)) [(source.node s).name] [])
    · exact .inl (Layer.single_shift_of_ne hq)
  · rw [content?_eq_or]
    exact Layer.or_shift

theorem copied_graftWithin (hs : source.Linked) (hdepth : ∀ q x, source.Route s q x → q.length ≤ d) (hf : f.Linked)
    (hp : p < f.count) : Copied source s p f (source.graftWithin d f s p) := by
  induction d generalizing f s p with
  | zero =>
    have hleaf := Route.children_eq_nil hs hdepth
    have := copied_of_children (s := s) (d := 0) hs hf hp (by simp [hleaf])
    rwa [hleaf] at this
  | succ d ih =>
    exact copied_of_children hs hf hp fun hf hp hc => ih (Route.length_le_child hdepth (hs.mem_children.1 hc)) hf hp

/-- **A grafted subtree is a copy.** -/
theorem copied_graft (hs : source.Linked) (hf : f.Linked) (hp : p < f.count) :
    Copied source s p f (f.graft source s p) :=
  copied_graftWithin hs (fun _ _ h => hs.length_le_count h) hf hp

end Forest
end SignalCatalog
