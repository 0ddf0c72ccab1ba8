import SignalCatalog.Proofs.Expand.Regular
import SignalCatalog.Proofs.Expand.Unhindered
import SignalCatalog.Proofs.Forest.Check
/-!
# How many passes an expansion takes

Where nothing hinders the expansion, it ends well after no more passes than branches with instances are nested.  It
takes just as many where every node is copied: the uppermost branch of a longest chain is expanded in its pass, all the
others are in its template, and their copies are a chain again.
-/
namespace SignalCatalog

namespace Layer

variable {l : Layer} {levels : List (List String)} {p q leaf : List String} {qs : List (List String)} {c : Content}

theorem Chain.eq_map (h : l.Chain (p :: qs)) : ∃ rs, qs = rs.map (p ++ ·) ∧ (l.below p).Chain ([] :: rs) := by
  obtain ⟨hfirst, -⟩ := List.pairwise_cons.1 h.ascending
  have hqs : qs = (qs.map (List.drop p.length)).map (p ++ ·) := by
    rw [List.map_map]
    refine (List.map_id' qs).symm.trans (List.map_congr_left fun q hq => ?_)
    obtain ⟨r, rfl⟩ := (hfirst q hq).1
    rw [Function.comp_apply, List.drop_left]
  refine ⟨_, hqs, chain_below.2 ?_⟩
  rw [List.map_cons, List.append_nil, ← hqs]
  exact h

theorem Chain.eq_map_cons (h : l.Chain qs) (hqs : qs ≠ []) (hnil : [] ∉ qs) :
    ∃ name rs, qs = rs.map ([name] ++ ·) ∧ (l.below [name]).Chain rs := by
  obtain ⟨q, qs, rfl⟩ := List.exists_cons_of_ne_nil hqs
  obtain ⟨name, r, rfl⟩ := List.exists_cons_of_ne_nil fun heq => hnil (heq ▸ List.mem_cons_self)
  obtain ⟨hfirst, -⟩ := List.pairwise_cons.1 h.ascending
  have hmap : (name :: r) :: qs = (((name :: r) :: qs).map List.tail).map ([name] ++ ·) := by
    rw [List.map_map]
    refine (List.map_id' _).symm.trans (List.map_congr_left fun q hq => ?_)
    obtain ⟨s, rfl⟩ : name :: r <+: q :=
      (List.mem_cons.1 hq).elim (fun heq => heq ▸ List.prefix_refl _) fun hq => (hfirst q hq).1
    rfl
  exact ⟨name, _, hmap, chain_below.2 (hmap ▸ h)⟩

theorem template_of_all (hclosed : l.Closed) (hall : ∀ q c, l q = some c → c.payload.common.instantiate = true)
    {first : List String} (hfree : ∀ name ∈ first, l [name] = none) (hq : l q = some c) (hnil : q ≠ []) :
    l.template first q = some c := by
  obtain ⟨name, r, rfl⟩ := List.exists_cons_of_ne_nil hnil
  obtain ⟨top, htop⟩ : ∃ top, l [name] = some top := Option.ne_none_iff_exists'.1 fun hnone => by
    have := hclosed [name] r hnone
    rw [List.singleton_append, hq] at this
    cases this
  have hname : name ∉ first := fun hmem => by
    rw [hfree name hmem] at htop
    cases htop
  rw [template, if_pos (by simp [htop, hall [name] top htop, hname]), hq]

/-- **The copies of a chain** in the template of a branch are a chain below each of its innermost instances. -/
theorem Chain.copied (h : l.Chain ([] :: qs)) (hu : l.Unhindered) (hclosed : l.Closed)
    (hall : ∀ q c, l q = some c → c.payload.common.instantiate = true) (hc : l [] = some c)
    (hlevels : Tree.levelNames c.payload = .ok levels) (hleaf : Level.IsInnermost levels leaf) :
    (l.expanded levels).Chain (qs.map (leaf ++ ·)) := by
  obtain ⟨hfirst, hrest⟩ := List.pairwise_cons.1 h.ascending
  refine ⟨List.pairwise_map.2 (hrest.imp fun ⟨hpre, hne⟩ =>
    ⟨(List.prefix_append_right_inj leaf).2 hpre, by simpa using hne⟩),
    List.forall_mem_map.2 fun q hq => ?_⟩
  obtain ⟨e, hq', he⟩ := h.pending q (List.mem_cons_of_mem _ hq)
  obtain ⟨c', hc', hinst⟩ := h.pending [] List.mem_cons_self
  obtain rfl := Option.some_inj.1 (hc.symm.trans hc')
  obtain ⟨levels', hlevels', hdup, hfree⟩ := hu [] c hc hinst
  rw [hlevels] at hlevels'
  cases hlevels'
  have htemplate := template_of_all hclosed hall hfree hq' (hfirst q hq).2.symm
  have hspread : (l.template (levels.head?.getD [])).spread (Level.leaves levels [[]]) (leaf ++ q) = some e :=
    (spread_append (Level.nodup_leaves hdup (List.nodup_singleton _))
      (fun _ hp => (Level.mem_leaves_iff.1 hp).length_eq) (Level.mem_leaves_iff.2 hleaf)).trans htemplate
  have hmark : leaf ++ q ∉ Level.paths levels [[]] := fun hmem => by
    have hlen := (Level.mem_paths_iff.1 hmem).length_le
    rw [List.length_append, hleaf.length_eq] at hlen
    exact (hfirst q hq).2.symm (List.length_eq_zero_iff.1 (by omega))
  obtain ⟨names, rest, rfl⟩ := List.exists_cons_of_ne_nil (levels_ne_nil hinst hlevels)
  obtain ⟨first, leaf, hmem, -, rfl⟩ := List.forall₂_cons_right_iff.1 hleaf
  refine ⟨e, ?_, he⟩
  rw [List.cons_append] at hspread hmark ⊢
  rw [Layer.expanded, fill_of_some hspread, fill_of_none (mark_of_not_mem hmark),
    rest_of_mem hu hclosed hc hinst hlevels (show first ∈ (names :: rest).head?.getD [] from hmem)]
  rfl

end Layer

namespace Tree

variable {t t' : Tree} {n x k d : Nat} {ids : List NodeId} {levels : List (List String)} {p q : List String}

def nestingAt (t : Tree) (x : NodeId) : Nat := if (t.node x).payload.instances.isEmpty then 0 else 1

/-- **How deep branches with instances are nested** below a node: the most of them on a way down to a leaf, of at most
`depth` edges. -/
def nestingWithin (t : Tree) : (depth : Nat) → NodeId → Nat
  | 0, x => t.nestingAt x
  | depth + 1, x => t.nestingAt x + ((t.children x).map (t.nestingWithin depth)).max?.getD 0

/-- **How deep branches with instances are nested in a tree**, in which no way down has more edges than there
are nodes. -/
def nesting (t : Tree) : Nat := t.nestingWithin t.count t.root

theorem length_le_nestingAt {qs : List (List String)} (hqs : (t.content? x).Chain qs)
    (hbelow : ∀ rs, (t.content? x).Chain rs → [] ∉ rs → rs.length ≤ k) : qs.length ≤ t.nestingAt x + k := by
  by_cases hnil : [] ∈ qs
  · obtain ⟨c, hc, hinst⟩ := hqs.pending [] hnil
    rw [Forest.content?_nil, Option.some_inj] at hc
    have hinst : (t.node x).payload.instances ≠ [] := by rwa [← hc] at hinst
    cases qs with
    | nil => cases hnil
    | cons q qs =>
      obtain ⟨hfirst, hrest⟩ := List.pairwise_cons.1 hqs.ascending
      have hq : q = [] := by
        by_contra hne
        have hmem := (List.mem_cons.1 hnil).resolve_left (Ne.symm hne)
        exact hne (List.prefix_nil.1 (hfirst [] hmem).1)
      subst hq
      have hlen :=
        hbelow qs ⟨hrest, fun q hq => hqs.pending q (List.mem_cons_of_mem _ hq)⟩ fun hmem => (hfirst [] hmem).2 rfl
      rw [nestingAt, if_neg (mt List.isEmpty_iff.1 hinst), List.length_cons]
      omega
  · have := hbelow qs hqs hnil
    omega

theorem exists_chain_nestingAt {rs : List (List String)} (hrs : (t.content? x).Chain rs) (hnil : [] ∉ rs) :
    ∃ qs, (t.content? x).Chain qs ∧ qs.length = t.nestingAt x + rs.length := by
  rw [nestingAt]
  split
  · exact ⟨rs, hrs, (Nat.zero_add _).symm⟩
  · rename_i hinst
    refine ⟨[] :: rs, ⟨List.pairwise_cons.2 ⟨fun q hq => ⟨List.nil_prefix, fun heq => hnil (heq ▸ hq)⟩, hrs.ascending⟩,
      List.forall_mem_cons.2 ⟨⟨_, Forest.content?_nil .., mt List.isEmpty_iff.2 hinst⟩, hrs.pending⟩⟩,
      Nat.add_comm _ _⟩

theorem content?_child_eq_below {c : Nat} (ht : t.Linked) (hd : t.DistinctBelow x) (hc : t.parent? c = some x) :
    t.content? c = (t.content? x).below [(t.node c).name] :=
  funext fun _ => (Forest.content?_append ht hd (.single hc)).symm

theorem nests_nestingWithin (ht : t.Linked) (hd : t.DistinctBelow x) (hdeep : ∀ q y, t.Route x q y → q.length ≤ d) :
    (t.content? x).Nests (t.nestingWithin d x) := by
  have hroute {x : Nat} (hd : t.DistinctBelow x) {qs : List (List String)} (hqs : (t.content? x).Chain qs)
      {q : List String} (hq : q ∈ qs) : ∃ y, t.Route x q y := by
    obtain ⟨c, hc, -⟩ := hqs.pending q hq
    obtain ⟨y, hy, -⟩ := (Forest.content?_eq_some ht hd).1 hc
    exact ⟨y, hy⟩
  induction d generalizing x with
  | zero =>
    refine fun qs hqs => length_le_nestingAt (k := 0) hqs fun rs hrs hnil => ?_
    refine Nat.le_of_eq (List.length_eq_zero_iff.2 (List.eq_nil_iff_forall_not_mem.2 fun q hq => hnil ?_))
    obtain ⟨y, hy⟩ := hroute hd hrs hq
    rwa [← List.length_eq_zero_iff.1 (Nat.le_zero.1 (hdeep q y hy))]
  | succ d ih =>
    refine fun qs hqs => length_le_nestingAt hqs fun rs hrs hnil => ?_
    by_cases hempty : rs = []
    · rw [hempty]
      exact Nat.zero_le _
    obtain ⟨name, rs', rfl, hrs'⟩ := hrs.eq_map_cons hempty hnil
    obtain ⟨r, rs', rfl⟩ := List.exists_cons_of_ne_nil (show rs' ≠ [] by rintro rfl; exact hempty rfl)
    obtain ⟨y, hy⟩ := hroute hd hrs List.mem_cons_self
    obtain ⟨c, hc, rfl, -⟩ := hy.of_cons
    rw [← content?_child_eq_below ht hd hc] at hrs'
    have hle := ih (hd.mono (.down .refl hc)) (Forest.Route.length_le_child hdeep hc) _ hrs'
    have hmem : t.nestingWithin d c ∈ (t.children x).map (t.nestingWithin d) :=
      List.mem_map_of_mem (ht.mem_children.2 hc)
    rw [List.length_map]
    refine Nat.le_trans hle ?_
    cases hmax : ((t.children x).map (t.nestingWithin d)).max? with
    | none =>
      rw [List.max?_eq_none_iff.1 hmax] at hmem
      cases hmem
    | some m => exact (List.max?_eq_some_iff.1 hmax).2 _ hmem

theorem exists_chain_nestingWithin (ht : t.Linked) (hd : t.DistinctBelow x) :
    ∃ qs, (t.content? x).Chain qs ∧ qs.length = t.nestingWithin d x := by
  have hnone : (t.content? x).Chain [] := ⟨List.Pairwise.nil, by simp⟩
  induction d generalizing x with
  | zero => exact exists_chain_nestingAt hnone (by simp)
  | succ d ih =>
    rw [nestingWithin]
    cases hmax : ((t.children x).map (t.nestingWithin d)).max? with
    | none => exact exists_chain_nestingAt hnone (by simp)
    | some m =>
      obtain ⟨c, hmem, rfl⟩ := List.mem_map.1 (List.max?_eq_some_iff.1 hmax).1
      have hc := ht.mem_children.1 hmem
      obtain ⟨rs, hrs, hlen⟩ := ih (hd.mono (.down .refl hc)) ⟨List.Pairwise.nil, by simp⟩
      rw [content?_child_eq_below ht hd hc, Layer.chain_below] at hrs
      obtain ⟨qs, hqs, hlen'⟩ := exists_chain_nestingAt hrs (by simp)
      exact ⟨qs, hqs, by rw [hlen', List.length_map, hlen]; rfl⟩

/-! ## A pass -/

/-- Every node is copied into the instances of the branches that it is in the template of. -/
def AllCopied (t : Tree) : Prop := ∀ x ∈ t.preorder, (t.node x).payload.common.instantiate = true

/-- **What a pass does to a longest chain**: its uppermost branch has its turn to come, or the others are there as
copies that no branch with a turn to come is above. -/
structure Lasting (d : Nat) (ids : List NodeId) (t : Tree) : Prop where
  /-- No branch has its turn after one that it is above. -/
  ordered : ids.Pairwise fun x y => ¬ t.Below y x
  copied : t.AllCopied
  chain : (∃ q qs x, t.contents.Chain (q :: qs) ∧ qs.length = d ∧ x ∈ ids ∧ t.Route t.root q x) ∨
    ∃ qs, t.contents.Chain qs ∧ qs.length = d ∧ ∀ x ∈ ids, ∀ p, t.Route t.root p x → ∀ q ∈ qs, ¬ p <+: q

namespace Lasting

theorem skip (h : Lasting d (n :: ids) t) (hn : ¬ t.Below t.root n) : Lasting d ids t where
  ordered := (List.pairwise_cons.1 h.ordered).2
  copied := h.copied
  chain := by
    refine h.chain.imp ?_ ?_
    · rintro ⟨q, qs, x, hchain, hlen, hx, hr⟩
      refine ⟨q, qs, x, hchain, hlen, (List.mem_cons.1 hx).resolve_left ?_, hr⟩
      rintro rfl
      exact hn ⟨q, hr⟩
    · rintro ⟨qs, hchain, hlen, hfree⟩
      exact ⟨qs, hchain, hlen, fun x hx => hfree x (List.mem_cons_of_mem _ hx)⟩

end Lasting

theorem ne_nil_of_levelNames {pl : Payload} (hlevels : levelNames pl = .ok levels) : ∀ names ∈ levels, names ≠ [] := by
  intro names hnames
  obtain ⟨level, -, hlevel⟩ := exists_of_mem_right (mapM_eq_ok_iff.1 hlevels) hnames
  split at hlevel
  · rename_i hok
    cases hlevel
    obtain ⟨names', -, hok⟩ := exists_of_bind_eq_ok hok
    split at hok
    · cases hok
    · rename_i hempty
      cases hok
      exact mt List.isEmpty_iff.2 hempty
  · cases hlevel

theorem exists_innermost {pl : Payload} (hlevels : levelNames pl = .ok levels) :
    ∃ leaf, Level.IsInnermost levels leaf := by
  obtain ⟨leaf, hleaf⟩ := exists_forall₂ (R := fun names name => name ∈ names) fun names hnames =>
    List.exists_mem_of_ne_nil names (ne_nil_of_levelNames hlevels names hnames)
  exact ⟨leaf, hleaf.flip⟩

section Step

variable (h : Lasting d (n :: ids) t) (hrun : Unnesting d (n :: ids) t) (hu : t.contents.Unhindered)
  (hp : t.Route t.root p n) (hlevels : levelNames (t.node n).payload = .ok levels) (hexp : t.Expanded n levels t')
include hrun

/-- A longest chain begins with an uppermost branch. -/
theorem Unnesting.not_above {qs : List (List String)} (hchain : t.contents.Chain (q :: qs))
    (hlen : qs.length = d) (hx : x ∈ n :: ids) (hr : t.Route t.root p x) : p <+: q → p = q := by
  intro hpre
  by_contra hne
  obtain ⟨hfirst, -⟩ := List.pairwise_cons.1 hchain.ascending
  have hlonger : t.contents.Chain (p :: q :: qs) := by
    refine ⟨List.pairwise_cons.2 ⟨List.forall_mem_cons.2 ⟨⟨hpre, hne⟩, fun r hr => ⟨hpre.trans (hfirst r hr).1, ?_⟩⟩,
      hchain.ascending⟩, List.forall_mem_cons.2 ⟨?_, hchain.pending⟩⟩
    · rintro rfl
      exact hne (hpre.eq_of_length (Nat.le_antisymm hpre.length_le (hfirst _ hr).1.length_le))
    · exact pending_of_route hrun.wellFormed hrun.siblingsDiffer hr ((hrun.pending x hx).2 ⟨p, hr⟩)
  have := hrun.chains _ hlonger
  simp only [List.length_cons] at this
  omega

include h hp

theorem Lasting.copied_below {c : Content} (hc : t.content? n q = some c) : c.payload.common.instantiate = true := by
  have ht := hrun.wellFormed
  obtain ⟨x, hx, rfl⟩ := (Forest.content?_eq_some ht.linked (hrun.siblingsDiffer.mono ⟨p, hp⟩)).1 hc
  exact h.copied x ((mem_preorder ht.linked).2 ⟨_, hp.trans hx⟩)

include hu hlevels hexp

/-- What is below an expanded branch was in its template, and is cut off with it. -/
theorem Lasting.not_below_root (hx : t.Route n q x) (hq : q ≠ []) : ¬ t'.Below t'.root x := by
  have ht := hrun.wellFormed
  have hs := hrun.siblingsDiffer
  have hd := hs.mono ⟨p, hp⟩
  have hunhindered : (t.content? n).Unhindered := content?_eq_below ht hs hp ▸ hu.below p
  obtain ⟨levels', hlevels', -, hfree⟩ :=
    hunhindered [] _ (Forest.content?_nil ..) ((hrun.pending n List.mem_cons_self).2 ⟨p, hp⟩)
  obtain rfl : levels = levels' := Except.ok.inj (hlevels.symm.trans hlevels')
  have htemplate := Layer.template_of_all (closed_content? _ n) (fun _ _ hc => h.copied_below hrun hp hc) hfree
    (Forest.content?_of_route ht.linked hd hx) hq
  refine hexp.not_below_root ht hd ⟨p, hp⟩ hx ?_
  rw [templateContents_eq ht.linked hd, htemplate]
  simp

/-- The uppermost branch of a longest chain is expanded: the others are in its template, and so are copied. -/
theorem Lasting.copy {qs : List (List String)} (hchain : t.contents.Chain (p :: qs)) (hlen : qs.length = d) :
    ∃ qs', t'.contents.Chain qs' ∧ qs'.length = d ∧ ∀ x ∈ ids, ∀ r, t'.Route t'.root r x → ∀ q ∈ qs', ¬ r <+: q := by
  have ht := hrun.wellFormed
  have hs := hrun.siblingsDiffer
  have hself := content?_eq_below ht hs hp
  obtain ⟨rs, rfl, hbelow⟩ := hchain.eq_map
  rw [← hself] at hbelow
  obtain ⟨leaf, hleaf⟩ := exists_innermost hlevels
  have hcopied := hbelow.copied (hself ▸ hu.below p) (closed_content? _ n) (fun _ _ hc => h.copied_below hrun hp hc)
    (Forest.content?_nil ..) hlevels hleaf
  rw [← show t'.contents.below p = _ from funext (hexp.contents_of_prefix ht hs hp), Layer.chain_below] at hcopied
  refine ⟨_, hcopied, by simpa using hlen, fun x hx r hr q hq hpre => ?_⟩
  obtain ⟨s, hs', rfl⟩ := List.mem_map.1 hq
  have hold : t.Route t.root r x :=
    hexp.regrown.route_back ht.linked (hrun.pending x (List.mem_cons_of_mem _ hx)).1 (hexp.same_root ▸ hr)
  have hne : x ≠ n := fun heq => (List.nodup_cons.1 hrun.nodup).1 (heq ▸ hx)
  rcases List.prefix_or_prefix_of_prefix hpre (List.prefix_append p s) with hrp | hpr
  · rw [hrun.not_above hchain hlen (List.mem_cons_of_mem _ hx) hold hrp] at hold
    exact hne (ht.linked.route_right_unique hs hold hp)
  · obtain ⟨r', rfl⟩ := hpr
    obtain ⟨b, hb, hbx⟩ := hold.of_append
    obtain rfl := ht.linked.route_right_unique hs hb hp
    have hnil : r' ≠ [] := by
      rintro rfl
      exact hne hbx.eq_of_nil
    exact h.not_below_root hrun hu hp hlevels hexp hbx hnil ⟨_, hr⟩

theorem Lasting.step : Lasting d ids t' := by
  have ht := hrun.wellFormed
  have hs := hrun.siblingsDiffer
  have hlt {x : Nat} (hx : x ∈ ids) : x < t.count := (hrun.pending x (List.mem_cons_of_mem _ hx)).1
  have hback {x : Nat} (hx : x ∈ ids) {b : Nat} {q : List String} (hr : t'.Route b q x) : t.Route b q x :=
    hexp.regrown.route_back ht.linked (hlt hx) hr
  obtain ⟨hfirst, hrest⟩ := List.pairwise_cons.1 h.ordered
  refine ⟨hrest.imp_of_mem fun hx _ hab ⟨r, hr⟩ => hab ⟨r, hback hx hr⟩, fun x hx => ?_, ?_⟩
  · rcases (hexp.exists_origin ht hs ⟨p, hp⟩ hx).1 with hpay | ⟨y, hy, hpay⟩
    · rw [hpay, Payload.common_clearInstances]
      exact h.copied n ((mem_preorder ht.linked).2 ⟨p, hp⟩)
    · rw [hpay]
      exact h.copied y hy
  rcases h.chain with ⟨q, qs, x, hchain, hlen, hx, hr⟩ | ⟨qs, hchain, hlen, hfree⟩
  · by_cases hxn : x = n
    · subst hxn
      obtain rfl := ht.linked.route_unique hp hr
      exact .inr (h.copy hrun hu hp hlevels hexp hchain hlen)
    · -- the chain neither passes the branch nor begins above it, so it is outside
      have hx := (List.mem_cons.1 hx).resolve_left hxn
      have hpq : ¬ p <+: q := fun hpre => by
        obtain rfl := hrun.not_above hchain hlen List.mem_cons_self hp hpre
        exact hxn (ht.linked.route_right_unique hs hr hp)
      have hqp : ¬ q <+: p := by
        rintro ⟨r, rfl⟩
        obtain ⟨b, hb, hbn⟩ := hp.of_append
        obtain rfl := ht.linked.route_right_unique hs hb hr
        exact hfirst b hx ⟨r, hbn⟩
      have hout : ∀ r ∈ q :: qs, ¬ p <+: r := by
        refine List.forall_mem_cons.2 ⟨hpq, fun r hr hpr => ?_⟩
        have hqr := ((List.pairwise_cons.1 hchain.ascending).1 r hr).1
        exact (List.prefix_or_prefix_of_prefix hpr hqr).elim hpq hqp
      exact .inl ⟨q, qs, x, (hexp.chain_iff_of_not_below ht hs hp hout).2 hchain, hlen, hx,
        (hexp.route_outside ht hp hpq).2 hr⟩
  · refine .inr ⟨qs, (hexp.chain_iff_of_not_below ht hs hp (hfree n List.mem_cons_self p hp)).2 hchain,
      hlen, fun x hx r hr => ?_⟩
    exact hfree x (List.mem_cons_of_mem _ hx) r (hback hx (hexp.same_root ▸ hr))

end Step

/-- **A pass over a tree that hinders nothing does not fail**, counts no passes itself, and takes no more than one link
off a longest chain where every node is copied. -/
theorem expandPass_of_unhindered (stats : ExpansionStats) (h : Unnesting d ids t) (hu : t.contents.Unhindered) :
    ∃ stats' t', (expandPass stats ids).on t = (.ok stats', t') ∧ stats'.iterations = stats.iterations ∧
    t'.contents.Unhindered ∧
      (Lasting d ids t → Lasting d [] t') := by
  induction ids generalizing t stats with
  | nil => exact ⟨stats, t, rfl, rfl, hu, id⟩
  | cons id ids ih =>
    rw [expandPass, on_get_bind]
    by_cases hid : t.Below t.root id
    · rw [if_pos ((isAttached_iff h.wellFormed.linked h.wellFormed.root_top).2 hid)]
      obtain ⟨p, hp⟩ := hid
      obtain ⟨levels, created, t₁, hlevels, hone, hexp, hu₁⟩ :=
        expandNode_of_unhindered h.wellFormed h.siblingsDiffer hu hp
        ((h.pending id List.mem_cons_self).2 ⟨p, hp⟩)
      rw [on_bind_ok hone]
      obtain ⟨stats', t', hon, hiter, hu', hlast⟩ := ih _ (h.step ⟨p, hp⟩ hone) hu₁
      exact ⟨stats', t', hon, hiter, hu', fun hl => hlast (hl.step h hu hp hlevels hexp)⟩
    · rw [if_neg (mt (isAttached_iff h.wellFormed.linked h.wellFormed.root_top).1 hid)]
      obtain ⟨stats', t', hon, hiter, hu', hlast⟩ := ih _ (h.skip hid) hu
      exact ⟨stats', t', hon, hiter, hu', fun hl => hlast (hl.skip hid)⟩

/-- **A pass starts with the turn of a longest chain to come.** -/
theorem lasting_pending (ht : t.WellFormed) (hs : t.SiblingsDiffer) (hall : t.AllCopied) {qs : List (List String)}
    (hqs : t.contents.Chain qs) (hlen : qs.length = d + 1) : Lasting d t.pending t := by
  refine ⟨(ht.linked.pairwise_subtree ht.children_nodup).filter _, hall, .inl ?_⟩
  obtain ⟨q, qs, rfl⟩ := List.exists_cons_of_length_eq_add_one hlen
  obtain ⟨x, hx, hr⟩ := (contents_pending_iff ht hs).1 (hqs.pending q List.mem_cons_self)
  exact ⟨q, qs, x, hqs, Nat.succ_inj.1 hlen, hx, hr⟩

theorem Lasting.exists_chain (h : Lasting d [] t) : ∃ qs, t.contents.Chain qs ∧ qs.length = d := by
  rcases h.chain with ⟨_, _, _, -, -, hx, -⟩ | ⟨qs, hchain, hlen, -⟩
  · cases hx
  · exact ⟨qs, hchain, hlen⟩

/-! ## Pass after pass -/

/-- **Where nothing hinders the expansion, it ends well** after no more passes than branches are nested, and after just
as many where every node is copied. -/
theorem settle_of_unhindered (stats : ExpansionStats) (ht : t.WellFormed) (hs : t.SiblingsDiffer)
    (hu : t.contents.Unhindered) (hd : t.contents.Nests d) :
    ∃ t' stats', settle stats t = some (t', .ok stats') ∧ stats'.iterations ≤ stats.iterations + d ∧
      (t.AllCopied → (∃ qs, t.contents.Chain qs ∧ qs.length = d) → stats'.iterations = stats.iterations + d) := by
  induction d generalizing stats t with
  | zero =>
    rw [settle_eq, if_pos (pending_eq_nil_of_nests ht hs hd)]
    exact ⟨t, stats, rfl, Nat.le_refl _, fun _ _ => rfl⟩
  | succ d ih =>
    have hsep := hu.separate (closed_content? _ _)
    rw [settle_eq]
    split
    · rename_i hnone
      refine ⟨t, stats, rfl, Nat.le_add_right .., fun _ ⟨qs, hqs, hlen⟩ => ?_⟩
      -- a chain begins at a branch that has a turn
      obtain ⟨q, qs, rfl⟩ := List.exists_cons_of_length_eq_add_one hlen
      obtain ⟨x, hx, -⟩ := (contents_pending_iff ht hs).1 (hqs.pending q List.mem_cons_self)
      rw [hnone] at hx
      cases hx
    · obtain ⟨stats₁, t₁, hpass, hiter, hu₁, hlast⟩ :=
        expandPass_of_unhindered { stats with iterations := stats.iterations + 1 } (unnesting_pending ht hs hsep hd) hu
      have hiter : stats₁.iterations = stats.iterations + 1 := hiter
      obtain ⟨ht₁, hs₁, -, hd₁⟩ := expandPass_nests ht hs hsep hd hpass
      obtain ⟨t', stats', hsettle, hle, heq⟩ := ih stats₁ ht₁ hs₁ hu₁ hd₁
      rw [hpass]
      refine ⟨t', stats', hsettle, by omega, fun hall ⟨qs, hqs, hlen⟩ => ?_⟩
      have hdone := hlast (lasting_pending ht hs hall hqs hlen)
      rw [heq hdone.copied hdone.exists_chain, hiter]
      exact Nat.add_right_comm ..

/-- **Every branch with instances can be expanded**: its levels can be read and repeat no name, and no child has the
name of a first instance. -/
def Unhindered (t : Tree) : Prop := ∀ n ∈ t.preorder, (t.node n).payload.instances ≠ [] →
  ∃ levels, levelNames (t.node n).payload = .ok levels ∧ (∀ names ∈ levels, names.Nodup) ∧
    ∀ c ∈ t.children n, (t.node c).name ∉ levels.head?.getD []

theorem Unhindered.contents (h : t.Unhindered) (ht : t.WellFormed) (hs : t.SiblingsDiffer) : t.contents.Unhindered := by
  intro q c hq hinst
  obtain ⟨n, hn, rfl⟩ := (Forest.content?_eq_some ht.linked hs).1 hq
  obtain ⟨levels, hlevels, hdup, hfree⟩ := h n ((mem_preorder ht.linked).2 ⟨q, hn⟩) hinst
  refine ⟨levels, hlevels, hdup, fun name hname => Option.eq_none_iff_forall_ne_some.2 fun e he => ?_⟩
  obtain ⟨x, hx, -⟩ := (Forest.content?_eq_some ht.linked hs).1 he
  obtain ⟨b, hb, hbx⟩ := hx.of_append
  obtain rfl := ht.linked.route_right_unique hs hn hb
  obtain ⟨c, hc, rfl, -⟩ := hbx.of_cons
  exact hfree c (ht.linked.mem_children.2 hc) hname

/-- **How many passes an expansion takes**: where siblings differ and every branch with instances can be expanded,
it ends well, after no more passes than branches with instances are nested, and after just as many where every node
is copied. -/
theorem expand_iterations (ht : t.WellFormed) (hs : t.SiblingsDiffer) (hu : t.Unhindered) :
    ∃ t' stats, t.expand = some (t', .ok stats) ∧ stats.iterations ≤ t.nesting ∧
    (t.AllCopied → stats.iterations = t.nesting) := by
  have hnests : t.contents.Nests t.nesting :=
    nests_nestingWithin ht.linked hs fun q y hr => ht.linked.length_le_count hr
  have hchain : ∃ qs, t.contents.Chain qs ∧ qs.length = t.nesting := exists_chain_nestingWithin ht.linked hs
  obtain ⟨t', stats, hexpand, hle, heq⟩ := settle_of_unhindered {} ht hs (hu.contents ht hs) hnests
  rw [Nat.zero_add] at hle heq
  exact ⟨t', stats, hexpand, hle, fun hall => heq hall hchain⟩

def panes : Tree where
  nodes := #[
    { name := "Cabin", payload := .branch "cabin", children := [1] },
    { name := "Door", payload := { common := { description := "door" }, body := .branch [⟨["Left", "Right"]⟩] },
      parent := some 0, children := [2] },
    { name := "Window", payload := { common := { description := "window" }, body := .branch [⟨["Upper", "Lower"]⟩] },
      parent := some 1 }]
  root := 0

theorem expand_panes : panes.WellFormed ∧ panes.SiblingsDiffer ∧ panes.Unhindered ∧ panes.AllCopied ∧
    ∃ t' stats, panes.expand = some (t', .ok stats) ∧ stats.iterations = 2 := by
  have ht : panes.WellFormed := wellFormed_of_isOrdered (by decide)
  have hs : panes.SiblingsDiffer := siblingsDiffer_of_isOrdered (by decide)
  have hdoor : levelNames (panes.node 1).payload = .ok [["Left", "Right"]] := by cbv
  have hwindow : levelNames (panes.node 2).payload = .ok [["Upper", "Lower"]] := by cbv
  have hu : panes.Unhindered := by
    intro n hn hinst
    have hcases : n = 0 ∨ n = 1 ∨ n = 2 := by
      revert n
      decide
    obtain rfl | rfl | rfl := hcases
    · exact absurd rfl hinst
    · exact ⟨_, hdoor, by decide, by decide⟩
    · exact ⟨_, hwindow, by decide, by decide⟩
  have hall : panes.AllCopied := by
    unfold AllCopied
    decide
  obtain ⟨t', stats, hexpand, -, heq⟩ := expand_iterations ht hs hu
  exact ⟨ht, hs, hu, hall, t', stats, hexpand, (heq hall).trans (by decide)⟩

end Tree
end SignalCatalog
