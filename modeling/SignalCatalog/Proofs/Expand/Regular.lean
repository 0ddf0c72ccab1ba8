import SignalCatalog.Proofs.Build.Carried
import SignalCatalog.Proofs.Build.Outcome
import SignalCatalog.Proofs.Expand.Exact
import SignalCatalog.Proofs.Expand.Nesting
import SignalCatalog.Proofs.Expand.Run
/-!
# Expansions of regular trees

A tree is regular when it is well-formed, its siblings differ, and no level of a branch gives a name twice.  Expanding a
branch of a regular tree leaves a regular one, so every tree on the way is described by what expansions of well-formed
trees are known to do.
-/
namespace SignalCatalog

namespace Payload

def EachLevel (P : List String → Prop) (p : Payload) : Prop :=
  ∀ levels, Tree.levelNames p = .ok levels → ∀ names ∈ levels, P names

/-- **No level gives a name twice.** -/
def LevelsDiffer (p : Payload) : Prop := p.EachLevel List.Nodup

theorem eachLevel_of_instances {P : List String → Prop} {p : Payload} (h : p.instances = []) : p.EachLevel P := by
  intro levels hlevels
  rw [Tree.levelNames, h] at hlevels
  cases hlevels
  simp

end Payload

namespace Layer

variable {l o : Layer} {q : List String} {c : Content}

/-- A place of a filled layer is as it was, or newly taken, or a placeholder no more. -/
theorem fill_cases (h : l.fill o q = some c) : l q = some c ∨ o q = some c ∧ l q = none ∨
    ∃ d e, o q = some d ∧ l q = some e ∧ e.autogenerated = true ∧ c = ⟨d.payload, false⟩ := by
  cases ho : o q with
  | none =>
    rw [fill_of_none ho] at h
    exact .inl h
  | some d =>
    rw [fill_of_some ho, Option.some_inj] at h
    cases hl : l q with
    | none =>
      rw [hl] at h
      exact .inr (.inl ⟨congrArg some h, rfl⟩)
    | some e =>
      rw [hl, Content.onto] at h
      split at h
      · rename_i hauto
        exact .inr (.inr ⟨d, e, rfl, rfl, hauto, h.symm⟩)
      · exact .inl (congrArg some h)

end Layer

namespace Tree

variable {t t' u u' : Tree} {n x id k : Nat} {levels : List (List String)} {q : List String}
  {c : Content} {ids : List NodeId} {stats : ExpansionStats}

/-! ## Where contents come from -/

/-- **Where a place of an expanded branch has its content from.** -/
inductive Source (t : Tree) (n : NodeId) (levels : List (List String)) (q : List String) : Content → Prop
  | kept {c : Content} : t.restContents n levels q = some c → Source t n levels q c
  | instanced : Level.IsInstance levels q → Source t n levels q ⟨(t.node n).payload.clearInstances, false⟩
  | copied {leaf p : List String} {c : Content} : Level.IsInnermost levels leaf → q = leaf ++ p →
      t.templateContents n levels p = some c → Source t n levels q c
  /-- A copy on a placeholder. -/
  | merged {leaf p : List String} {c d : Content} : Level.IsInnermost levels leaf → q = leaf ++ p →
      t.templateContents n levels p = some c → t.restContents n levels q = some d → d.autogenerated = true →
      Source t n levels q ⟨c.payload, false⟩

theorem source_of_expandedContents (h : t.expandedContents n levels q = some c) : t.Source n levels q c := by
  have hmark : ∀ {d : Content}, Layer.mark (instanceContent (t.node n).payload.clearInstances)
      (Level.paths levels [[]]) q = some d →
      Level.IsInstance levels q ∧ d = ⟨(t.node n).payload.clearInstances, false⟩ := by
    intro d hd
    rw [Layer.mark] at hd
    split at hd
    · rename_i hq
      exact ⟨Level.mem_paths_iff.1 hq, (Option.some_inj.1 hd).symm⟩
    · cases hd
  rw [expandedContents] at h
  rcases Layer.fill_cases h with h | ⟨h, -⟩ | ⟨d, e, hd, he, hauto, rfl⟩
  · rcases Layer.fill_cases h with h | ⟨h, -⟩ | ⟨d, e, hd, -, -, rfl⟩
    · exact .kept h
    · obtain ⟨hq, rfl⟩ := hmark h
      exact .instanced hq
    · obtain ⟨hq, rfl⟩ := hmark hd
      exact .instanced hq
  · obtain ⟨leaf, hleaf, p, rfl, hp⟩ := Layer.exists_of_spread h
    exact .copied (Level.mem_leaves_iff.1 hleaf) rfl hp
  · obtain ⟨leaf, hleaf, p, rfl, hp⟩ := Layer.exists_of_spread hd
    rcases Layer.fill_cases he with he | ⟨he, -⟩ | ⟨d', e', hd', -, -, rfl⟩
    · exact .merged (Level.mem_leaves_iff.1 hleaf) rfl hp he hauto
    · rw [(hmark he).2] at hauto
      cases hauto
    · cases hauto

theorem content?_of_templateContents (ht : t.Linked) (hd : t.DistinctBelow n)
    (h : t.templateContents n levels q = some c) :
    t.content? n q = some c := by
  rw [templateContents_eq ht hd] at h
  exact (Layer.template_eq h).1

theorem content?_of_restContents (h : t.restContents n levels q = some c) : t.content? n q = some c := by
  rw [restContents] at h
  split at h
  · exact h
  · cases h

namespace Expanded

variable (h : t.Expanded n levels t') (ht : t.WellFormed) (hs : t.SiblingsDiffer) (hn : t.Below t.root n)
include h ht hs hn

omit hs in
/-- **A node after an expansion** stands outside the branch and is as it was, or it is the branch, or it stands below it
with a content that has a source. -/
theorem node_cases (hx : x ∈ t'.preorder) : x ∈ t.preorder ∧ ¬ t.Below n x ∧ t'.node x = t.node x ∨
    x = n ∧ (t'.node x).content = ⟨(t.node n).payload.clearInstances, (t.node n).autogenerated⟩ ∨
      ∃ q, q ≠ [] ∧ t'.Route n q x ∧ t.Source n levels q (t'.node x).content := by
  by_cases hbelow : t'.Below n x
  · obtain ⟨q, hq⟩ := hbelow
    cases q with
    | nil =>
      obtain rfl := hq.eq_of_nil
      exact .inr (.inl ⟨rfl, h.own⟩)
    | cons name q =>
      have hcontent := Forest.content?_of_route h.regrown.linked h.distinct hq
      rw [h.below] at hcontent
      exact .inr (.inr ⟨_, by simp, hq, source_of_expandedContents hcontent⟩)
  · obtain ⟨hold, hout⟩ := (h.outside ht hn).2 x hx hbelow
    exact .inl ⟨hold, hout, ((h.outside ht hn).1 x hold hout).2.2⟩

omit h in
theorem exists_of_content? (hc : t.content? n q = some c) :
    ∃ y ∈ t.preorder, t.Route n q y ∧ (t.node y).content = c := by
  obtain ⟨y, hy, rfl⟩ := (Forest.content?_eq_some ht.linked (hs.mono hn)).1 hc
  exact ⟨y, (mem_preorder ht.linked).2 (hn.trans ⟨q, hy⟩), hy, rfl⟩

/-- **Payloads are handed on**, and so are those of the placeholders. -/
theorem exists_origin (hx : x ∈ t'.preorder) :
    ((t'.node x).payload = (t.node n).payload.clearInstances ∨
      ∃ y ∈ t.preorder, (t'.node x).payload = (t.node y).payload) ∧
      ((t'.node x).autogenerated = true → x = n ∨ ∃ y ∈ t.preorder, (t'.node x).content = (t.node y).content) := by
  rcases h.node_cases ht hn hx with ⟨hold, -, hnode⟩ | ⟨rfl, hcontent⟩ | ⟨q, -, hq, hsource⟩
  · rw [hnode]
    exact ⟨.inr ⟨x, hold, rfl⟩, fun _ => .inr ⟨x, hold, rfl⟩⟩
  · exact ⟨.inl (congrArg Content.payload hcontent), fun _ => .inl rfl⟩
  · generalize hc : (t'.node x).content = c at hsource
    have hpayload : (t'.node x).payload = c.payload := congrArg Content.payload hc
    have hauto : (t'.node x).autogenerated = c.autogenerated := congrArg Content.autogenerated hc
    rw [hpayload, hauto]
    cases hsource with
    | kept hrest =>
      obtain ⟨y, hy, -, rfl⟩ := exists_of_content? ht hs hn (content?_of_restContents hrest)
      exact ⟨.inr ⟨y, hy, rfl⟩, fun _ => .inr ⟨y, hy, rfl⟩⟩
    | instanced => exact ⟨.inl rfl, by simp⟩
    | copied hleaf hpq hp =>
      obtain ⟨y, hy, -, rfl⟩ := exists_of_content? ht hs hn (content?_of_templateContents ht.linked (hs.mono hn) hp)
      exact ⟨.inr ⟨y, hy, rfl⟩, fun _ => .inr ⟨y, hy, rfl⟩⟩
    | merged hleaf hpq hp =>
      obtain ⟨y, hy, -, rfl⟩ := exists_of_content? ht hs hn (content?_of_templateContents ht.linked (hs.mono hn) hp)
      exact ⟨.inr ⟨y, hy, rfl⟩, by simp⟩

theorem eachLevel {P : List String → Prop} (hall : ∀ x ∈ t.preorder, (t.node x).payload.EachLevel P) :
    ∀ x ∈ t'.preorder, (t'.node x).payload.EachLevel P := by
  intro x hx
  rcases (h.exists_origin ht hs hn hx).1 with hpayload | ⟨y, hy, hpayload⟩
  · exact Payload.eachLevel_of_instances (by rw [hpayload, Payload.instances_clearInstances])
  · rw [hpayload]
    exact hall y hy

theorem content_of_declared (hdup : ∀ names ∈ levels, names.Nodup) (hlt : x < t.count)
    (hx : x ∈ t'.preorder) (hne : x ≠ n) (hauto : (t.node x).autogenerated = false) :
    (t'.node x).content = (t.node x).content := by
  by_cases hbelow : t'.Below n x
  · obtain ⟨q, hq⟩ := hbelow
    have hold := h.regrown.route_back ht.linked hlt hq
    have hd := hs.mono hn
    have htemplate : t.templateContents n levels q = none := by
      by_contra hq
      exact h.not_below_root ht hd hn hold hq ((mem_preorder h.regrown.linked).1 hx)
    have hrest : t.restContents n levels q = some (t.node x).content := by
      rw [restContents, if_pos htemplate, Forest.content?_of_route ht.linked hd hold]
    have hcontent := Forest.content?_of_route h.regrown.linked h.distinct hq
    have hnil : q ≠ [] := by
      rintro rfl
      exact hne hq.eq_of_nil
    rw [h.content?_eq, if_neg hnil, expandedContents_kept hdup hrest (.inl hauto), Option.some_inj] at hcontent
    exact hcontent.symm
  · obtain ⟨hold, hout⟩ := (h.outside ht hn).2 x hx hbelow
    rw [((h.outside ht hn).1 x hold hout).2.2]

end Expanded

/-! ## Regular trees -/

/-- **A tree whose expansion is described by contents.** -/
structure Regular (t : Tree) : Prop extends WellFormed t where
  siblingsDiffer : t.SiblingsDiffer
  levelsDiffer : ∀ x ∈ t.preorder, (t.node x).payload.LevelsDiffer
  /-- Placeholders have no instances. -/
  blank : ∀ x ∈ t.preorder, (t.node x).autogenerated = true → (t.node x).payload.instances = []

namespace Regular

variable (h : t.Regular) (hn : t.Below t.root n) (hinst : (t.node n).payload.instances ≠ [])
include h hn hinst

theorem declared : (t.node n).autogenerated = false := by
  by_contra hauto
  exact hinst (h.blank n ((mem_preorder h.linked).2 hn) (by simpa using hauto))

/-- **An expansion in a regular tree** is told by its levels. -/
theorem exists_expanded (hon : (expandNode n).on t = (.ok k, t')) :
    ∃ levels, levelNames (t.node n).payload = .ok levels ∧ (∀ names ∈ levels, names.Nodup) ∧
    t.Expanded n levels t' := by
  obtain ⟨levels, hlevels⟩ := exists_levelNames hon
  have hdup := h.levelsDiffer n ((mem_preorder h.linked).2 hn) levels hlevels
  exact ⟨levels, hlevels, hdup, expanded_of_on h.linked (h.siblingsDiffer.mono hn) (hn.lt_count h.root_lt_count)
    (Payload.kind_of_instances hinst) hlevels h.children_nodup hdup hon⟩

theorem expanded (hexp : t.Expanded n levels t') : t'.Regular where
  toWellFormed := hexp.wellFormed h.toWellFormed
  siblingsDiffer := hexp.siblingsDiffer h.toWellFormed h.siblingsDiffer
  levelsDiffer := hexp.eachLevel h.toWellFormed h.siblingsDiffer hn h.levelsDiffer
  blank := by
    intro x hx hauto
    rcases (hexp.exists_origin h.toWellFormed h.siblingsDiffer hn hx).2 hauto with rfl | ⟨y, hy, hcontent⟩
    · rw [show (t'.node x).payload = _ from congrArg Content.payload hexp.own]
      exact Payload.instances_clearInstances _
    · rw [show (t'.node x).payload = _ from congrArg Content.payload hcontent]
      rw [show (t'.node x).autogenerated = _ from congrArg Content.autogenerated hcontent] at hauto
      exact h.blank y hy hauto

end Regular

/-- **What the states of a run are** when it begins with a regular tree: what is left of the pass is pending still,
where it is attached. -/
structure RegularState (ids : List NodeId) (u : Tree) : Prop where
  regular : u.Regular
  nodup : ids.Nodup
  pending : ∀ x ∈ ids, x < u.count ∧ (u.Below u.root x → (u.node x).payload.instances ≠ [])

namespace RegularState

theorem tail (h : RegularState (id :: ids) u) : RegularState ids u where
  regular := h.regular
  nodup := (List.nodup_cons.1 h.nodup).2
  pending := fun x hx => h.pending x (List.mem_cons_of_mem _ hx)

theorem exists_expanded (h : RegularState (id :: ids) u) (hid : u.isAttached id = true)
    (hon : (expandNode id).on u = (.ok k, u')) :
    u.Below u.root id ∧ (u.node id).payload.instances ≠ [] ∧
      ∃ levels, levelNames (u.node id).payload = .ok levels ∧ (∀ names ∈ levels, names.Nodup) ∧
      u.Expanded id levels u' := by
  have hbelow := (isAttached_iff h.regular.linked h.regular.root_top).1 hid
  have hinst := (h.pending id List.mem_cons_self).2 hbelow
  exact ⟨hbelow, hinst, h.regular.exists_expanded hbelow hinst hon⟩

theorem pass (h : RegularState [] u) : RegularState u.pending u where
  regular := h.regular
  nodup := h.regular.nodup_preorder.filter _
  pending := by
    intro x hx
    obtain ⟨hbelow, hinst⟩ := (mem_pending h.regular.linked).1 hx
    exact ⟨hbelow.lt_count h.regular.root_lt_count, fun _ => hinst⟩

theorem expand (h : RegularState (id :: ids) u) (hid : u.isAttached id = true)
    (hon : (expandNode id).on u = (.ok k, u')) :
    RegularState ids u' := by
  obtain ⟨hbelow, hinst, levels, -, hdup, hexp⟩ := h.exists_expanded hid hon
  obtain ⟨hnotin, hnodup⟩ := List.nodup_cons.1 h.nodup
  have ht := h.regular.toWellFormed
  have hs := h.regular.siblingsDiffer
  refine ⟨h.regular.expanded hbelow hinst hexp, hnodup, fun x hx => ?_⟩
  have hne : x ≠ id := by
    rintro rfl
    exact hnotin hx
  obtain ⟨hlt, hpending⟩ := h.pending x (List.mem_cons_of_mem _ hx)
  refine ⟨Nat.lt_of_lt_of_le hlt hexp.regrown.count_le, fun hx' => ?_⟩
  have hold : u.Below u.root x := by
    obtain ⟨q, hq⟩ := hx'
    rw [hexp.same_root] at hq
    exact ⟨q, hexp.regrown.route_back ht.linked hlt hq⟩
  have hsame := hexp.content_of_declared ht hs hbelow hdup hlt ((mem_preorder hexp.regrown.linked).2 hx') hne
    (h.regular.declared hold (hpending hold))
  rw [show (u'.node x).payload = _ from congrArg Content.payload hsame]
  exact hpending hold

end RegularState

theorem Reaches.regularState (h : t.Reaches ids u) (ht : t.Regular) : RegularState ids u := by
  induction h with
  | start => exact ⟨ht, List.nodup_nil, by simp⟩
  | pass _ ih => exact ih.pass
  | skip _ _ ih => exact ih.tail
  | expand _ hid hon ih => exact ih.expand hid hon

/-! ## Built trees -/

theorem eachLevel_of_one {P : List String → Prop} (hone : ∀ x ∈ t.preorder, x = n ∨ (t.node x).payload.instances = [])
    (hlevels : levelNames (t.node n).payload = .ok levels) (hall : ∀ names ∈ levels, P names) :
    ∀ x ∈ t.preorder, (t.node x).payload.EachLevel P := by
  intro x hx
  rcases hone x hx with rfl | hinst
  · intro levels' hlevels'
    rw [hlevels, Except.ok.injEq] at hlevels'
    exact hlevels' ▸ hall
  · exact Payload.eachLevel_of_instances hinst

theorem regular_of_build {r : Registry} {mode : BuildMode} {data : Mapping} {o : BuildOutcome}
    (h : build r mode data = .ok o) (hlevels : ∀ x ∈ o.tree.preorder, (o.tree.node x).payload.LevelsDiffer) :
    o.tree.Regular := by
  obtain ⟨ht, hs⟩ := wellFormed_of_build h
  have hcarry := carries_of_build (G := fun c => c.autogenerated = true → c.payload.instances = []) h (fun _ => rfl)
    (fun _ _ _ _ hauto => by cases hauto)
  exact ⟨ht, hs, hlevels, ht.content_of_carries hcarry⟩

end Tree

/-- **What a built and expanded tree carries**: what entries and placeholders do, and what an expansion makes of it. -/
theorem content_of_expand {G : Content → Prop} {r : Registry} {mode : BuildMode} {data : Mapping}
    {o : BuildOutcome} {t : Tree} {stats : ExpansionStats} (h : build r mode data = .ok o)
    (he : o.tree.expand = some (t, .ok stats)) (hG : G ⟨.placeholder, true⟩)
    (hread : ∀ e ∈ data, ∀ pl, Payload.read r e.2 = .ok pl → G ⟨pl, false⟩)
    (hdeclared : ∀ {c}, G c → G ⟨c.payload, false⟩)
    (hclear : ∀ {c}, G c → G ⟨c.payload.clearInstances, c.autogenerated⟩) : ∀ x ∈ t.preorder, G (t.node x).content := by
  have hrun := Tree.reaches_of_expand he
  have ht := (wellFormed_of_build h).1.toRooted
  exact (hrun.rooted ht).content_of_carries (hrun.carries hdeclared hclear ht (carries_of_build h hG hread))

end SignalCatalog
