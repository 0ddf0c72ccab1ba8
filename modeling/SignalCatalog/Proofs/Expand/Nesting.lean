import SignalCatalog.Proofs.Expand.Contents
import SignalCatalog.Proofs.Expand.Exact
import SignalCatalog.Proofs.Expand.Passes
/-!
# How deep instances nest

A branch is separate when nothing below the places of its own instances is pending.  What is pending after its expansion
then comes out of its template or stood beside it, in the same order from top to bottom, and the branch itself is no
longer above it: a pass takes one link off every chain of pending branches.
-/
namespace SignalCatalog

namespace Layer

variable {l : Layer} {levels : List (List String)} {p q r : List String} {qs : List (List String)} {name : String}
  {c : Content} {d : Nat}

/-- **A path at which instances are still to be made.** -/
def Pending (l : Layer) (q : List String) : Prop := ∃ c, l q = some c ∧ c.payload.instances ≠ []

/-- **Every pending branch is separate**: nothing is pending at or below the places of its instances, and its levels
repeat no name. -/
def Separate (l : Layer) : Prop :=
  ∀ q c levels, l q = some c → c.payload.instances ≠ [] → Tree.levelNames c.payload = .ok levels →
  (∀ names ∈ levels, names.Nodup) ∧ ∀ name ∈ levels.head?.getD [], ∀ r, ¬ l.Pending (q ++ name :: r)

/-- Pending branches one below the other. -/
structure Chain (l : Layer) (qs : List (List String)) : Prop where
  ascending : qs.Pairwise fun p q => p <+: q ∧ p ≠ q
  pending : ∀ q ∈ qs, l.Pending q

/-- No chain has more than `d` links. -/
def Nests (l : Layer) (d : Nat) : Prop := ∀ qs, l.Chain qs → qs.length ≤ d

theorem Separate.below (hs : l.Separate) (p : List String) : (l.below p).Separate := by
  intro q c levels hq hc hlevels
  refine (hs (p ++ q) c levels hq hc hlevels).imp_right fun hsep name hname r => ?_
  have := hsep name hname r
  rwa [List.append_assoc] at this

theorem chain_congr {l' : Layer} (h : ∀ q ∈ qs, l' q = l q) : l'.Chain qs ↔ l.Chain qs := by
  have hpending : (∀ q ∈ qs, l'.Pending q) ↔ ∀ q ∈ qs, l.Pending q := forall₂_congr fun q hq => by
    rw [Pending, h q hq, Pending]
  exact ⟨fun hqs => ⟨hqs.ascending, hpending.1 hqs.pending⟩, fun hqs => ⟨hqs.ascending, hpending.2 hqs.pending⟩⟩

theorem chain_below : (l.below p).Chain qs ↔ l.Chain (qs.map (p ++ ·)) := by
  refine ⟨fun h => ⟨?_, ?_⟩, fun h => ⟨?_, ?_⟩⟩
  · exact List.pairwise_map.2 (h.ascending.imp fun ⟨hpre, hne⟩ =>
      ⟨(List.prefix_append_right_inj p).2 hpre, by simpa using hne⟩)
  · exact List.forall_mem_map.2 h.pending
  · exact (List.pairwise_map.1 h.ascending).imp fun ⟨hpre, hne⟩ =>
      ⟨(List.prefix_append_right_inj p).1 hpre, by simpa using hne⟩
  · exact fun q hq => h.pending _ (List.mem_map_of_mem hq)

/-! ## Where pending branches come from -/

theorem levels_ne_nil (hc : c.payload.instances ≠ []) (h : Tree.levelNames c.payload = .ok levels) : levels ≠ [] := by
  rintro rfl
  rw [Tree.levelNames] at h
  cases hi : c.payload.instances with
  | nil => exact hc hi
  | cons level rest =>
    rw [hi, List.mapM_cons] at h
    cases hl : level.names with
    | error e =>
      rw [hl] at h
      cases h
    | ok names =>
      rw [hl] at h
      generalize (rest.mapM _ : Except ExpansionError (List (List String))) = m at h
      cases m <;> cases h

theorem template_eq (hc : l.template p q = some c) : l q = some c ∧ q ≠ [] := by
  cases q with
  | nil => cases hc
  | cons name q =>
    rw [template] at hc
    split at hc
    · exact ⟨hc, by simp⟩
    · cases hc

theorem expanded_of_not_mem (hname : name ∉ levels.head?.getD []) (hne : levels ≠ []) :
    l.expanded levels (name :: q) = l.rest (levels.head?.getD []) (name :: q) := by
  obtain ⟨names, levels, rfl⟩ := List.exists_cons_of_ne_nil hne
  have hmark : name :: q ∉ Level.paths (names :: levels) [[]] := by
    intro h
    obtain ⟨-, h⟩ := Level.mem_paths_iff.1 h
    exact hname (List.forall₂_cons.1 h).1
  have hspread : (l.template names).spread (Level.leaves (names :: levels) [[]]) (name :: q) = none := by
    refine Option.eq_none_iff_forall_ne_some.2 fun c hc => ?_
    obtain ⟨p, hp, r, heq, -⟩ := exists_of_spread hc
    obtain ⟨_, _, hm, -, rfl⟩ := List.forall₂_cons_right_iff.1 (Level.mem_leaves_iff.1 hp)
    rw [List.cons_append, List.cons.injEq] at heq
    exact hname (heq.1 ▸ hm)
  exact (fill_of_none hspread).trans (fill_of_none (mark_of_not_mem hmark))

/-- **Where a path of an expanded branch was before it**: what is below an innermost instance was in the template. -/
def origin (levels : List (List String)) : List String → List String
  | [] => []
  | name :: q => if name ∈ levels.head?.getD [] then (name :: q).drop levels.length else name :: q

section Origin

variable (hs : l.Separate) (hc : l [] = some c) (hinst : c.payload.instances ≠ [])
  (hlevels : Tree.levelNames c.payload = .ok levels)
include hs hc hinst hlevels

/-- **What is pending in an expanded branch was pending before**, at its origin, and so was the branch, above it. -/
theorem origin_of_expanded {e : Content} (hq : l.expanded levels q = some e) (he : e.payload.instances ≠ []) :
    origin levels q ≠ [] ∧ (∃ o, l (origin levels q) = some o ∧ o.payload = e.payload) ∧
      ∀ r, origin levels (q ++ r) = origin levels q ++ r := by
  cases q with
  | nil =>
    rw [Layer.expanded, hc, Option.map_some, Option.some_inj] at hq
    rw [← hq] at he
    exact absurd (Payload.instances_clearInstances _) he
  | cons name q =>
    rw [origin]
    split
    · rename_i hname
      have hsep := (hs [] c levels hc hinst hlevels).2 name hname q
      rw [Layer.expanded] at hq
      rcases exists_of_fill hq with ⟨o, ho, hpay⟩ | hq
      · obtain ⟨p, hp, r, heq, hr⟩ := exists_of_spread ho
        have hlen := (Level.mem_leaves_iff.1 hp).length_eq
        obtain ⟨hl, hne⟩ := template_eq hr
        rw [heq, ← hlen, List.drop_left]
        refine ⟨hne, ⟨o, hl, hpay.symm⟩, fun r' => ?_⟩
        rw [← heq, List.cons_append, origin, if_pos hname, ← List.cons_append, heq, List.append_assoc,
          ← hlen, List.drop_left]
      · -- what the templates do not bring below an instance was there, or is an instance itself
        refine absurd ?_ hsep
        rcases exists_of_fill hq with ⟨o, ho, hpay⟩ | hq
        · rw [mark] at ho
          split at ho
          · rw [← Option.some_inj.1 ho, hc] at hpay
            rw [hpay] at he
            exact absurd (Payload.instances_clearInstances _) he
          · cases ho
        · rw [rest] at hq
          split at hq
          · exact ⟨e, hq, he⟩
          · cases hq
    · rename_i hname
      rw [expanded_of_not_mem hname (levels_ne_nil hinst hlevels), rest] at hq
      split at hq
      · exact ⟨by simp, ⟨e, hq, rfl⟩, fun r => by rw [List.cons_append, origin, if_neg hname]⟩
      · cases hq

theorem Chain.expanded (h : (l.expanded levels).Chain qs) : l.Chain ([] :: qs.map (origin levels)) := by
  have horigin : ∀ q ∈ qs, origin levels q ≠ [] ∧ l.Pending (origin levels q) ∧
      ∀ r, origin levels (q ++ r) = origin levels q ++ r := fun q hq => by
    obtain ⟨e, hq, he⟩ := h.pending q hq
    obtain ⟨hne, ⟨o, ho, hpay⟩, happ⟩ := origin_of_expanded hs hc hinst hlevels hq he
    exact ⟨hne, ⟨o, ho, hpay ▸ he⟩, happ⟩
  constructor
  · refine List.pairwise_cons.2 ⟨fun q hq => ?_, List.pairwise_map.2 (h.ascending.imp_of_mem fun hp hq hpq => ?_)⟩
    · obtain ⟨q', hq', rfl⟩ := List.mem_map.1 hq
      exact ⟨List.nil_prefix, (horigin q' hq').1.symm⟩
    · obtain ⟨⟨r, rfl⟩, hne⟩ := hpq
      rw [(horigin _ hp).2.2 r]
      exact ⟨List.prefix_append _ _, by simpa using hne⟩
  · refine List.forall_mem_cons.2 ⟨⟨c, hc, hinst⟩, fun q hq => ?_⟩
    obtain ⟨q', hq', rfl⟩ := List.mem_map.1 hq
    exact (horigin q' hq').2.1

theorem Separate.expanded : (l.expanded levels).Separate := by
  intro q e levels' hq he hlevels'
  obtain ⟨-, ⟨o, ho, hpay⟩, happ⟩ := origin_of_expanded hs hc hinst hlevels hq he
  obtain ⟨hdup, hsep⟩ := hs _ o levels' ho (hpay ▸ he) (hpay ▸ hlevels')
  refine ⟨hdup, fun name hname r hpending => hsep name hname r ?_⟩
  obtain ⟨e', hq', he'⟩ := hpending
  obtain ⟨-, ⟨o', ho', hpay'⟩, -⟩ := origin_of_expanded hs hc hinst hlevels hq' he'
  rw [happ] at ho'
  exact ⟨o', ho', hpay' ▸ he'⟩

end Origin

end Layer

namespace Tree

variable {t t' : Tree} {n x k d : Nat} {ids : List NodeId} {stats stats' : ExpansionStats}
  {levels : List (List String)} {p q : List String}

/-! ## One expansion in the whole tree -/

theorem Expanded.contents_of_prefix (h : t.Expanded n levels t') (ht : t.WellFormed) (hs : t.SiblingsDiffer)
    (hp : t.Route t.root p n) (q : List String) : t'.contents (p ++ q) = (t.content? n).expanded levels q := by
  have hs' := h.siblingsDiffer ht hs
  have hp' : t'.Route t'.root p n := by
    obtain ⟨r, hr⟩ := h.below_root ht ⟨p, hp⟩
    have hback := h.regrown.route_back ht.linked (hp.lt_count ht.root_lt_count) (h.same_root ▸ hr)
    rwa [← ht.linked.route_unique hback hp]
  rw [contents, Forest.content?_append h.regrown.linked hs' hp', h.content?_expanded ht.linked (hs.mono ⟨p, hp⟩)]

theorem Expanded.route_outside (h : t.Expanded n levels t') (ht : t.WellFormed)
    (hp : t.Route t.root p n) (hq : ¬ p <+: q) :
    t'.Route t'.root q x ↔ t.Route t.root q x := by
  have hn : t.Below t.root n := ⟨p, hp⟩
  have hback {r : List String} {y : Nat} (hy : y < t.count) (hr : t'.Route t'.root r y) : t.Route t.root r y :=
    h.regrown.route_back ht.linked hy (h.same_root ▸ hr)
  constructor
  · intro hx
    refine hback ?_ hx
    by_contra hlt
    -- a new node stands below the branch
    obtain ⟨r, hr⟩ := h.regrown.fresh (Nat.le_of_not_lt hlt) (hx.lt_count (h.wellFormed ht).root_lt_count)
    obtain ⟨s, hs⟩ := h.below_root ht hn
    have := ht.linked.route_unique (hback (hp.lt_count ht.root_lt_count) hs) hp
    subst this
    exact hq ⟨r, h.regrown.linked.route_unique (hs.trans hr) hx⟩
  · intro hx
    have hout : ¬ t.Below n x := fun ⟨r, hr⟩ => hq ⟨r, ht.linked.route_unique (hp.trans hr) hx⟩
    obtain ⟨hin, -, -⟩ := (h.outside ht hn).1 x ((mem_preorder ht.linked).2 ⟨q, hx⟩) hout
    obtain ⟨r, hr⟩ := (mem_preorder h.regrown.linked).1 hin
    rwa [ht.linked.route_unique hx (hback (hx.lt_count ht.root_lt_count) hr)]

theorem Expanded.contents_of_not_below (h : t.Expanded n levels t') (ht : t.WellFormed) (hs : t.SiblingsDiffer)
    (hp : t.Route t.root p n) (hq : ¬ p <+: q) : t'.contents q = t.contents q := by
  refine Option.ext fun c => ?_
  rw [contents, Forest.content?_eq_some h.regrown.linked (h.siblingsDiffer ht hs), contents,
    Forest.content?_eq_some ht.linked hs]
  refine exists_congr fun x => ?_
  rw [h.route_outside ht hp hq]
  refine and_congr_right fun hx => ?_
  have hout : ¬ t.Below n x := fun ⟨r, hr⟩ => hq ⟨r, ht.linked.route_unique (hp.trans hr) hx⟩
  rw [((h.outside ht ⟨p, hp⟩).1 x ((mem_preorder ht.linked).2 ⟨q, hx⟩) hout).2.2]

theorem Expanded.chain_iff_of_not_below {qs : List (List String)} (h : t.Expanded n levels t') (ht : t.WellFormed)
    (hs : t.SiblingsDiffer) (hp : t.Route t.root p n) (hout : ∀ q ∈ qs, ¬ p <+: q) :
    t'.contents.Chain qs ↔ t.contents.Chain qs :=
  Layer.chain_congr fun q hq => h.contents_of_not_below ht hs hp (hout q hq)

section Expanded

variable (h : t.Expanded n levels t') (ht : t.WellFormed) (hs : t.SiblingsDiffer) (hp : t.Route t.root p n)
  (hsep : t.contents.Separate) (hinst : (t.node n).payload.instances ≠ [])
  (hlevels : levelNames (t.node n).payload = .ok levels)
include h ht hs hp hsep hinst hlevels

omit hsep hlevels h in
theorem pending_of_route : t.contents.Pending p := ⟨_, Forest.content?_of_route ht.linked hs hp, hinst⟩

omit h hsep hinst hlevels in
theorem content?_eq_below : t.content? n = t.contents.below p :=
  funext fun _ => (Forest.content?_append ht.linked hs hp).symm

theorem Expanded.separate : t'.contents.Separate := by
  intro q c levels' hq hc hlevels'
  by_cases hpq : p <+: q
  · obtain ⟨r, rfl⟩ := hpq
    rw [h.contents_of_prefix ht hs hp] at hq
    have hbelow := (content?_eq_below ht hs hp ▸ hsep.below p).expanded (Forest.content?_nil ..) hinst hlevels
    refine (hbelow r c levels' hq hc hlevels').imp_right fun hfree name hname s hpending => hfree name hname s ?_
    obtain ⟨e, he, hinst'⟩ := hpending
    rw [List.append_assoc, h.contents_of_prefix ht hs hp] at he
    exact ⟨e, he, hinst'⟩
  · rw [h.contents_of_not_below ht hs hp hpq] at hq
    refine (hsep q c levels' hq hc hlevels').imp_right fun hfree name hname r hpending => ?_
    by_cases hpr : p <+: q ++ name :: r
    · obtain ⟨s, rfl⟩ := (List.prefix_or_prefix_of_prefix hpr (List.prefix_append q _)).resolve_left hpq
      cases s with
      | nil => exact hpq (by simp)
      | cons name' s =>
        obtain ⟨rfl, -⟩ := List.cons_prefix_cons.1 ((List.prefix_append_right_inj q).1 hpr)
        exact hfree name' hname s (pending_of_route ht hs hp hinst)
    · obtain ⟨e, he, hinst'⟩ := hpending
      rw [h.contents_of_not_below ht hs hp hpr] at he
      exact hfree name hname r ⟨e, he, hinst'⟩

theorem Expanded.content_of_pending (hne : x ≠ n) (hx : t.Route t.root q x) (hx' : t'.Route t'.root q x)
    (hpending : (t.node x).payload.instances ≠ []) : (t'.node x).content = (t.node x).content := by
  have hc := Forest.content?_of_route ht.linked hs hx
  have hc' := Forest.content?_of_route h.regrown.linked (h.siblingsDiffer ht hs) hx'
  refine Option.some_inj.1 (hc'.symm.trans (Eq.trans ?_ hc))
  by_cases hpq : p <+: q
  · obtain ⟨r, rfl⟩ := hpq
    cases r with
    | nil =>
      rw [List.append_nil] at hx
      exact absurd (ht.linked.route_right_unique hs hx hp) hne
    | cons name r =>
      have hname : name ∉ levels.head?.getD [] := fun hname =>
        (hsep p _ levels (Forest.content?_of_route ht.linked hs hp) hinst hlevels).2 name hname r ⟨_, hc, hpending⟩
      have hold := h.contents_of_prefix ht hs hp (name :: r)
      rw [Layer.expanded_of_not_mem hname (Layer.levels_ne_nil (c := (t.node n).content) hinst hlevels),
        Layer.rest] at hold
      split at hold
      · rw [content?_eq_below ht hs hp] at hold
        exact hold
      · rw [contents, hc'] at hold
        cases hold
  · exact h.contents_of_not_below ht hs hp hpq

/-- **A chain through an expanded branch was one link longer before.** -/
theorem Expanded.exists_chain {qs : List (List String)} (hqs : t'.contents.Chain qs) (hthrough : ∃ q ∈ qs, p <+: q) :
    ∃ qs', t.contents.Chain qs' ∧ qs'.length = qs.length + 1 ∧ ∀ q ∈ qs', p <+: q ∨ q ∈ qs := by
  induction qs with
  | nil => simp at hthrough
  | cons q qs ih =>
    obtain ⟨hfirst, hrest⟩ := List.pairwise_cons.1 hqs.ascending
    by_cases hpq : p <+: q
    · -- from the first such link on, the chain lies in the branch
      have hall : ∀ r ∈ q :: qs, p ++ r.drop p.length = r := by
        intro r hr
        obtain ⟨s, rfl⟩ : p <+: r :=
          (List.mem_cons.1 hr).elim (fun heq => heq ▸ hpq) fun hr => hpq.trans (hfirst r hr).1
        rw [List.drop_left]
      have hmap : ((q :: qs).map (List.drop p.length)).map (p ++ ·) = q :: qs := by
        rw [List.map_map]
        exact (List.map_congr_left hall).trans (List.map_id _)
      have hbelow : t'.contents.below p = (t.content? n).expanded levels := funext (h.contents_of_prefix ht hs hp)
      rw [← hmap, ← Layer.chain_below, hbelow] at hqs
      have hchain := hqs.expanded (content?_eq_below ht hs hp ▸ hsep.below p) (Forest.content?_nil ..) hinst hlevels
      rw [content?_eq_below ht hs hp, Layer.chain_below] at hchain
      refine ⟨_, hchain, by simp, fun r hr => .inl ?_⟩
      obtain ⟨s, -, rfl⟩ := List.mem_map.1 hr
      exact List.prefix_append p s
    · -- the first link lies above the branch and is as it was
      have hthrough' : ∃ r ∈ qs, p <+: r := by
        obtain ⟨r, hr, hpr⟩ := hthrough
        exact ⟨r, (List.mem_cons.1 hr).resolve_left (by rintro rfl; exact hpq hpr), hpr⟩
      obtain ⟨qs', hchain, hlen, hmem⟩ := ih ⟨hrest, fun r hr => hqs.pending r (List.mem_cons_of_mem _ hr)⟩ hthrough'
      obtain ⟨r, hr, hpr⟩ := hthrough'
      have hqp : q <+: p := (List.prefix_or_prefix_of_prefix hpr (hfirst r hr).1).resolve_left hpq
      refine ⟨q :: qs', ⟨List.pairwise_cons.2 ⟨fun s hs' => ?_, hchain.ascending⟩,
        List.forall_mem_cons.2 ⟨?_, hchain.pending⟩⟩, by simp [hlen], fun s hs' => ?_⟩
      · rcases hmem s hs' with hps | hs'
        · exact ⟨hqp.trans hps, by rintro rfl; exact hpq hps⟩
        · exact hfirst s hs'
      · obtain ⟨c, hc, hinst'⟩ := hqs.pending q List.mem_cons_self
        rw [h.contents_of_not_below ht hs hp hpq] at hc
        exact ⟨c, hc, hinst'⟩
      · rcases List.mem_cons.1 hs' with rfl | hs'
        · exact .inr List.mem_cons_self
        · exact (hmem s hs').imp_right (List.mem_cons_of_mem _)

end Expanded

/-! ## Pass after pass -/

/-- **What a pass over separate branches still has to do**: chains with a link too many go through a node on
the list. -/
structure Unnesting (d : Nat) (ids : List NodeId) (t : Tree) : Prop where
  wellFormed : t.WellFormed
  siblingsDiffer : t.SiblingsDiffer
  separate : t.contents.Separate
  nodup : ids.Nodup
  pending : ∀ x ∈ ids, x < t.count ∧ (t.Below t.root x → (t.node x).payload.instances ≠ [])
  chains : ∀ qs, t.contents.Chain qs → qs.length ≤ d ∨ qs.length ≤ d + 1 ∧ ∃ q ∈ qs, ∃ x ∈ ids, t.Route t.root q x

namespace Unnesting

theorem skip (h : Unnesting d (n :: ids) t) (hn : ¬ t.Below t.root n) : Unnesting d ids t where
  wellFormed := h.wellFormed
  siblingsDiffer := h.siblingsDiffer
  separate := h.separate
  nodup := (List.nodup_cons.1 h.nodup).2
  pending := fun x hx => h.pending x (List.mem_cons_of_mem _ hx)
  chains := by
    intro qs hqs
    refine (h.chains qs hqs).imp_right (And.imp_right fun ⟨q, hq, x, hx, hr⟩ => ⟨q, hq, x, ?_, hr⟩)
    refine (List.mem_cons.1 hx).resolve_left ?_
    rintro rfl
    exact hn ⟨q, hr⟩

/-- **An expansion takes a link off the chains through its branch**, and leaves the others as they are. -/
theorem step (h : Unnesting d (n :: ids) t) (hn : t.Below t.root n) (hon : (expandNode n).on t = (.ok k, t')) :
    Unnesting d ids t' := by
  obtain ⟨hlt, hinst⟩ := h.pending n List.mem_cons_self
  have hinst := hinst hn
  obtain ⟨levels, hlevels⟩ := exists_levelNames hon
  obtain ⟨p, hp⟩ := hn
  have hp' := Forest.content?_of_route h.wellFormed.linked h.siblingsDiffer hp
  have hexp :=
    expanded_of_on h.wellFormed.linked (h.siblingsDiffer.mono ⟨p, hp⟩) hlt (Payload.kind_of_instances hinst) hlevels
    h.wellFormed.children_nodup (h.separate p _ levels hp' hinst hlevels).1 hon
  have hback {q : List String} {x : Nat} (hx : x < t.count) (hr : t'.Route t'.root q x) : t.Route t.root q x :=
    hexp.regrown.route_back h.wellFormed.linked hx (hexp.same_root ▸ hr)
  refine ⟨hexp.wellFormed h.wellFormed, hexp.siblingsDiffer h.wellFormed h.siblingsDiffer,
    hexp.separate h.wellFormed h.siblingsDiffer hp h.separate hinst hlevels,
    (List.nodup_cons.1 h.nodup).2, fun x hx => ?_,
    fun qs hqs => ?_⟩
  · have hne : x ≠ n := fun heq => (List.nodup_cons.1 h.nodup).1 (heq ▸ hx)
    obtain ⟨hlt, hpending⟩ := h.pending x (List.mem_cons_of_mem _ hx)
    refine ⟨Nat.lt_of_lt_of_le hlt hexp.regrown.count_le, fun ⟨q, hq⟩ => ?_⟩
    have hold := hback hlt hq
    have hsame :=
      hexp.content_of_pending h.wellFormed h.siblingsDiffer hp h.separate hinst hlevels hne hold hq (hpending ⟨q, hold⟩)
    rw [show (t'.node x).payload = _ from congrArg Content.payload hsame]
    exact hpending ⟨q, hold⟩
  · by_cases hthrough : ∃ q ∈ qs, p <+: q
    · obtain ⟨qs', hchain, hlen, -⟩ :=
        hexp.exists_chain h.wellFormed h.siblingsDiffer hp h.separate hinst hlevels hqs hthrough
      have := h.chains qs' hchain
      exact .inl (by omega)
    · have hout : ∀ q ∈ qs, ¬ p <+: q := fun q hq hpq => hthrough ⟨q, hq, hpq⟩
      have hold : t.contents.Chain qs := (hexp.chain_iff_of_not_below h.wellFormed h.siblingsDiffer hp hout).1 hqs
      refine (h.chains qs hold).imp_right (And.imp_right fun ⟨q, hq, x, hx, hr⟩ => ⟨q, hq, x, ?_, ?_⟩)
      · refine (List.mem_cons.1 hx).resolve_left ?_
        rintro rfl
        exact hout q hq (h.wellFormed.linked.route_unique hp hr ▸ List.prefix_refl _)
      · exact (hexp.route_outside h.wellFormed hp (hout q hq)).2 hr

end Unnesting

theorem expandPass_unnesting (h : Unnesting d ids t) (hon : (expandPass stats ids).on t = (.ok stats', t')) :
    Unnesting d [] t' := by
  induction ids generalizing t stats with
  | nil =>
    cases hon
    exact h
  | cons id ids ih =>
    rw [expandPass, on_get_bind] at hon
    by_cases hid : t.Below t.root id
    · rw [if_pos ((isAttached_iff h.wellFormed.linked h.wellFormed.root_top).2 hid)] at hon
      obtain ⟨created, t₁, hone, hon⟩ := on_bind_eq_ok hon
      exact ih (h.step hid hone) hon
    · rw [if_neg (mt (isAttached_iff h.wellFormed.linked h.wellFormed.root_top).1 hid)] at hon
      exact ih (h.skip hid) hon

theorem contents_pending_iff (ht : t.WellFormed) (hs : t.SiblingsDiffer) :
    t.contents.Pending q ↔ ∃ x ∈ t.pending, t.Route t.root q x := by
  constructor
  · rintro ⟨c, hc, hinst⟩
    obtain ⟨x, hx, rfl⟩ := (Forest.content?_eq_some ht.linked hs).1 hc
    exact ⟨x, (mem_pending ht.linked).2 ⟨⟨q, hx⟩, hinst⟩, hx⟩
  · rintro ⟨x, hx, hr⟩
    exact pending_of_route ht hs hr ((mem_pending ht.linked).1 hx).2

theorem pending_eq_nil_of_nests (ht : t.WellFormed) (hs : t.SiblingsDiffer) (hd : t.contents.Nests 0) :
    t.pending = [] := by
  refine List.eq_nil_iff_forall_not_mem.2 fun x hx => ?_
  obtain ⟨q, hq⟩ := ((mem_pending ht.linked).1 hx).1
  have := hd [q] ⟨List.pairwise_singleton _ _, List.forall_mem_singleton.2 ((contents_pending_iff ht hs).2 ⟨x, hx, hq⟩)⟩
  simp at this

/-- **A pass starts with a turn for every pending branch**, so every chain goes through one. -/
theorem unnesting_pending (ht : t.WellFormed) (hs : t.SiblingsDiffer) (hsep : t.contents.Separate)
    (hd : t.contents.Nests (d + 1)) :
    Unnesting d t.pending t := by
  refine ⟨ht, hs, hsep, ht.nodup_preorder.filter _, fun x hx => ?_, fun qs hqs => ?_⟩
  · obtain ⟨hbelow, hinst⟩ := (mem_pending ht.linked).1 hx
    exact ⟨hbelow.lt_count ht.root_lt_count, fun _ => hinst⟩
  · refine or_iff_not_imp_left.2 fun hlong => ⟨hd qs hqs, ?_⟩
    obtain ⟨q, hq⟩ := List.exists_mem_of_length_pos (Nat.zero_lt_of_lt (Nat.lt_of_not_le hlong))
    exact ⟨q, hq, (contents_pending_iff ht hs).1 (hqs.pending q hq)⟩

/-- **A pass over separate branches shortens the chains.** -/
theorem expandPass_nests (ht : t.WellFormed) (hs : t.SiblingsDiffer) (hsep : t.contents.Separate)
    (hd : t.contents.Nests (d + 1)) (hon : (expandPass stats t.pending).on t = (.ok stats', t')) :
    t'.WellFormed ∧ t'.SiblingsDiffer ∧ t'.contents.Separate ∧ t'.contents.Nests d := by
  have hdone := expandPass_unnesting (unnesting_pending ht hs hsep hd) hon
  exact ⟨hdone.wellFormed, hdone.siblingsDiffer, hdone.separate,
    fun qs hqs => (hdone.chains qs hqs).resolve_right (by simp)⟩

/-- **Where all pending branches are separate, the expansion ends**, after no more passes than they are nested deep. -/
theorem settle_of_separate (ht : t.WellFormed) (hs : t.SiblingsDiffer) (hsep : t.contents.Separate)
    (hd : t.contents.Nests d) :
    ∃ r, settle stats t = some r := by
  induction d generalizing stats t with
  | zero =>
    rw [settle_eq, if_pos (pending_eq_nil_of_nests ht hs hd)]
    exact ⟨_, rfl⟩
  | succ d ih =>
    rw [settle_eq]
    split
    · exact ⟨_, rfl⟩
    · split
      · rename_i hpass
        obtain ⟨ht', hs', hsep', hd'⟩ := expandPass_nests ht hs hsep hd hpass
        exact ih ht' hs' hsep' hd'
      · exact ⟨_, rfl⟩

/-- **Nothing below the places of a branch's instances has instances of its own**, and its levels repeat no name. -/
def Separate (t : Tree) : Prop := ∀ n ∈ t.preorder, ∀ levels, (t.node n).payload.instances ≠ [] →
  levelNames (t.node n).payload = .ok levels → (∀ names ∈ levels, names.Nodup) ∧
    ∀ c ∈ t.children n, (t.node c).name ∈ levels.head?.getD [] → ∀ x ∈ t.subtree c, (t.node x).payload.instances = []

theorem Separate.contents (h : t.Separate) (ht : t.WellFormed) (hs : t.SiblingsDiffer) :
    t.contents.Separate := fun q c levels hq hc hlevels => by
  obtain ⟨n, hn, rfl⟩ := (Forest.content?_eq_some ht.linked hs).1 hq
  have hin := (mem_preorder ht.linked).2 ⟨q, hn⟩
  refine (h n hin levels hc hlevels).imp_right fun hfree name hname r ⟨e, he, hinst⟩ => ?_
  obtain ⟨x, hx, rfl⟩ := (Forest.content?_eq_some ht.linked hs).1 he
  obtain ⟨b, hb, hbelow⟩ := hx.of_append
  obtain rfl := ht.linked.route_right_unique hs hn hb
  obtain ⟨c, hc, rfl, hcx⟩ := hbelow.of_cons
  exact hinst (hfree c (ht.linked.mem_children.2 hc) hname x (ht.linked.mem_subtree.2 ⟨r, hcx⟩))

theorem exists_nests (ht : t.WellFormed) (hs : t.SiblingsDiffer) : ∃ d, t.contents.Nests d := by
  refine ⟨t.count + 1, fun qs hqs => ?_⟩
  have hlengths : (qs.map List.length).Nodup :=
    List.pairwise_map.2 (hqs.ascending.imp fun ⟨hpre, hne⟩ hlen => hne (hpre.eq_of_length hlen))
  have hrange : qs.map List.length ⊆ List.range (t.count + 1) := by
    intro k hk
    obtain ⟨q, hq, rfl⟩ := List.mem_map.1 hk
    obtain ⟨c, hc, -⟩ := hqs.pending q hq
    obtain ⟨x, hx, -⟩ := (Forest.content?_eq_some ht.linked hs).1 hc
    exact List.mem_range.2 (Nat.lt_succ_of_le (ht.linked.length_le_count hx))
  simpa using hlengths.length_le_of_subset hrange

end Tree
end SignalCatalog
