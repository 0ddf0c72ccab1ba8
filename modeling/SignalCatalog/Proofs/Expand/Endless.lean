import SignalCatalog.Proofs.Build.Outcome
import SignalCatalog.Proofs.Expand.Contents
import SignalCatalog.Proofs.Expand.Nesting
import SignalCatalog.Proofs.Forest.Check
/-!
# An expansion without end

Every pass moves what is pending one level down, but it may also make room: a branch whose template holds the branch
again, below an instance that is itself pending, comes back three levels deeper in the same pass, with its template and
all.
-/
namespace SignalCatalog

namespace Layer

/-- A branch that is copied below its own instances. -/
def outer : Content := ⟨{ common := { description := "p" }, body := .branch [⟨["D"]⟩, ⟨["C", "P"]⟩] }, false⟩

/-- Its first instance, written out, with an instance of its own. -/
def inner : Content := ⟨{ common := { description := "z" }, body := .branch [⟨["C"]⟩] }, false⟩

/-- **What lies below the branch before every pass.** -/
def loop : Layer
  | [] => outer
  | ["D"] => inner
  | ["P"] => outer
  | ["P", "D"] => inner
  | _ => none

/-- What lies below the branch when it is expanded. -/
def outerDone : Layer := loop.expanded [["D"], ["C", "P"]]

/-- What lies below the first instance when it is expanded after that. -/
def innerDone : Layer := expanded [["C"]] fun q => outerDone ("D" :: q)

def loopPaths : List (List String) := [[], ["D"], ["P"], ["P", "D"]]

def outerPaths : List (List String) := expandedPaths [["D"], ["C", "P"]] loopPaths

/-- The paths that go on from an instance. -/
def innerPaths : List (List String) := expandedPaths [["C"]] (outerPaths.map List.tail)

theorem supportedBy_loop : loop.SupportedBy loopPaths := by
  intro q hq
  unfold loop at hq
  split at hq
  all_goals first | decide | exact absurd rfl hq

theorem supportedBy_outerDone : outerDone.SupportedBy outerPaths := supportedBy_loop.expanded

theorem supportedBy_innerDone : innerDone.SupportedBy innerPaths :=
  SupportedBy.expanded fun q hq => List.mem_map.2 ⟨"D" :: q, supportedBy_outerDone _ hq, rfl⟩

/-- What is pending below the branch is itself, its first instance, or in the template. -/
theorem pending_loop {q : List String} {c : Content} (h : loop q = some c) (hc : c.payload.instances ≠ []) :
    q = [] ∨ q = ["D"] ∨ loop.template ["D"] q ≠ none := by
  have := supportedBy_loop.of_all (fun q c => c.payload.instances.isEmpty || q == [] || q == ["D"] ||
    (loop.template ["D"] q).isSome) (by decide) h
  simpa [hc, or_assoc, Option.isSome_iff_ne_none] using this

theorem pending_outerDone {q : List String} {c : Content} (h : outerDone q = some c) (hc : c.payload.instances ≠ []) :
    ["D"] <+: q := by
  have := supportedBy_outerDone.of_all (fun q c => c.payload.instances.isEmpty || ["D"].isPrefixOf q) (by decide) h
  simpa [hc] using this

theorem pending_innerDone {q : List String} {c : Content} (h : innerDone q = some c) (hc : c.payload.instances ≠ []) :
    ["C", "P"] <+: q := by
  have := supportedBy_innerDone.of_all (fun q c => c.payload.instances.isEmpty || ["C", "P"].isPrefixOf q) (by decide) h
  simpa [hc] using this

/-- **The loop closes**: what began below the branch is found again below the instance of its first instance. -/
theorem innerDone_append (q : List String) : innerDone (["C", "P"] ++ q) = loop q := by
  by_cases hq : q ∈ loopPaths
  · rw [loopPaths, List.mem_cons, List.mem_cons, List.mem_cons, List.mem_singleton] at hq
    rcases hq with rfl | rfl | rfl | rfl
    all_goals rfl
  · have hloop : loop q = none := by
      by_contra h
      exact hq (supportedBy_loop q h)
    rw [hloop]
    by_contra h
    obtain ⟨c, hc⟩ := Option.ne_none_iff_exists'.1 h
    have := supportedBy_innerDone.of_all (fun q _ => !(["C", "P"].isPrefixOf q) || loopPaths.contains (q.drop 2))
      (by decide) hc
    simp [hq] at this

end Layer

namespace Tree

variable {t t' : Tree} {n x y k : Nat} {ids : List NodeId} {stats : ExpansionStats} {levels : List (List String)}

/-! ## Parts of a pass -/

theorem expandPass_expand {created : Nat} (hx : t.isAttached x = true) (hon : (expandNode x).on t = (.ok created, t'))
    (rest : List NodeId) :
    (expandPass stats (x :: rest)).on t =
      (expandPass { stats with expanded := stats.expanded + 1, created := stats.created + created } rest).on t' := by
  rw [expandPass, on_get_bind, if_pos hx, on_bind_ok hon]

section Invariant

variable {P : Tree → Prop} (hpending : ∀ t, P t → t.pending ≠ [])
  (hpass : ∀ stats t, P t → ∃ stats' t', (expandPass stats t.pending).on t = (.ok stats', t') ∧ P t')
include hpending hpass

theorem exists_afterPasses (ht : P t) : ∃ u, afterPasses k stats t = some u ∧ P u := by
  induction k generalizing stats t with
  | zero => exact ⟨t, rfl, ht⟩
  | succ k ih =>
    obtain ⟨stats', t', hon, ht'⟩ := hpass { stats with iterations := stats.iterations + 1 } t ht
    rw [afterPasses, if_neg (hpending t ht), hon]
    exact ih ht'

/-- **Passes that go on**: where every pass succeeds and leaves something pending in a tree of the same kind, none is
the last. -/
theorem settle_eq_none (ht : P t) : settle stats t = none := by
  refine Option.eq_none_iff_forall_ne_some.2 fun r hr => ?_
  refine settle.partial_correctness (fun _ t _ => ¬ P t) (fun settle' ih stats t r h ht => ?_) stats t r hr ht
  obtain ⟨stats', t', hon, ht'⟩ := hpass { stats with iterations := stats.iterations + 1 } t ht
  split at h
  · rename_i hnone
    exact hpending t ht hnone
  · rw [show (expandPass _ t.pending).run.run t = _ from hon] at h
    exact ih _ _ _ h ht'

end Invariant

theorem pending_eq_cons (ht : t.WellFormed) (hn : n ∈ t.pending) (hall : ∀ x ∈ t.pending, t.Below n x) :
    ∃ rest, t.pending = n :: rest ∧ n ∉ rest ∧ rest.Nodup := by
  have hpair : t.pending.Pairwise fun x y => ¬ t.Below y x :=
    (ht.linked.pairwise_subtree ht.children_nodup).sublist List.filter_sublist
  have hnodup : t.pending.Nodup := ht.nodup_preorder.filter _
  cases hp : t.pending with
  | nil =>
    rw [hp] at hn
    cases hn
  | cons x rest =>
    rw [hp] at hn hall hpair hnodup
    rcases List.mem_cons.1 hn with rfl | hin
    · exact ⟨rest, rfl, (List.nodup_cons.1 hnodup).1, (List.nodup_cons.1 hnodup).2⟩
    · exact absurd (hall x List.mem_cons_self) ((List.pairwise_cons.1 hpair).1 n hin)

theorem Expanded.pending_outside (h : t.Expanded n levels t') (ht : t.WellFormed)
    (hn : t.Below t.root n) (hx : x ∈ t'.pending) (hout : ¬ t'.Below n x) : x ∈ t.pending ∧ ¬ t.Below n x := by
  obtain ⟨hin, hinst⟩ := List.mem_filter.1 hx
  obtain ⟨hold, hout'⟩ := (h.outside ht hn).2 x hin hout
  rw [((h.outside ht hn).1 x hold hout').2.2] at hinst
  exact ⟨List.mem_filter.2 ⟨hold, hinst⟩, hout'⟩

theorem exists_of_mem_pending {l : Layer} (ht : t.WellFormed) (hd : t.DistinctBelow n)
    (hl : t.content? n = l) (hx : x ∈ t.pending) (hbelow : t.Below n x) :
    ∃ q c, t.Route n q x ∧ l q = some c ∧ c.payload.instances ≠ [] := by
  obtain ⟨q, hq⟩ := hbelow
  exact ⟨q, _, hq, hl ▸ Forest.content?_of_route ht.linked hd hq, ((mem_pending ht.linked).1 hx).2⟩

/-! ## The loop -/

/-- **A tree in the loop**: all that is pending lies at or below one branch, and below that is the loop. -/
structure Loops (n : Nat) (t : Tree) : Prop where
  wellFormed : t.WellFormed
  siblingsDiffer : t.SiblingsDiffer
  below : t.Below t.root n
  content : t.content? n = .loop
  pending : ∀ x ∈ t.pending, t.Below n x

theorem Loops.mem_pending_of_route (h : Loops n t) {q : List String} {c : Content} (hq : t.Route n q x)
    (hc : Layer.loop q = some c) (hne : c.payload.instances ≠ []) : x ∈ t.pending := by
  have := Forest.content?_of_route h.wellFormed.linked (h.siblingsDiffer.mono h.below) hq
  rw [h.content, hc, Option.some_inj] at this
  rw [this] at hne
  exact (mem_pending h.wellFormed.linked).2 ⟨h.below.trans ⟨q, hq⟩, hne⟩

theorem Loops.self_mem_pending (h : Loops n t) : n ∈ t.pending := h.mem_pending_of_route .here rfl (by decide)

/-- The tree between the two expansions of a pass: all that is pending lies at or below the first instance. -/
structure HalfLooped (z : Nat) (t : Tree) : Prop where
  wellFormed : t.WellFormed
  siblingsDiffer : t.SiblingsDiffer
  below : t.Below t.root z
  content : t.content? z = fun q => Layer.outerDone ("D" :: q)
  pending : ∀ x ∈ t.pending, t.Below z x

variable {z : Nat}

/-- **The first expansion of a pass** cuts off all that is pending but the first instance. -/
theorem Loops.expandOuter (h : Loops n t) (hz : t.Route n ["D"] z) :
    ∃ created t', (expandNode n).on t = (.ok created, t') ∧
    HalfLooped z t' ∧ t.count ≤ t'.count ∧ ∀ x ∈ t.pending, x ≠ n → x ≠ z → ¬ t'.Below t'.root x := by
  have hd : t.DistinctBelow n := h.siblingsDiffer.mono h.below
  have hlt := h.below.lt_count h.wellFormed.root_lt_count
  obtain ⟨created, t', hon, hexp, hcontent⟩ := expandNode_expands h.wellFormed hd hlt h.content rfl rfl
    (show levelNames Layer.outer.payload = .ok [["D"], ["C", "P"]] by cbv) (by decide) (by decide)
  have hwf := hexp.wellFormed h.wellFormed
  have hroot := hexp.below_root h.wellFormed h.below
  have hz' : t'.Route n ["D"] z := hexp.route_rest h.wellFormed hd hz (by
    rw [restContents_eq h.wellFormed.linked hd, h.content]
    decide)
  refine ⟨created, t', hon, ⟨hwf, hexp.siblingsDiffer h.wellFormed h.siblingsDiffer,
    hroot.trans ⟨_, hz'⟩, ?_, fun x hx => ?_⟩, hexp.regrown.count_le, fun x hx hne hnez => ?_⟩
  · funext q
    rw [← Forest.content?_append hwf.linked hexp.distinct hz', hcontent]
    rfl
  · by_cases hbelow : t'.Below n x
    · obtain ⟨q, c, hq, hc, hinst⟩ := exists_of_mem_pending hwf hexp.distinct hcontent hx hbelow
      obtain ⟨r, rfl⟩ := Layer.pending_outerDone hc hinst
      obtain ⟨b, hb, hr⟩ := hq.of_append
      rw [hwf.linked.route_right_unique hexp.distinct hz' hb]
      exact ⟨r, hr⟩
    · obtain ⟨hold, hout⟩ := hexp.pending_outside h.wellFormed h.below hx hbelow
      exact absurd (h.pending x hold) hout
  · obtain ⟨q, c, hq, hc, hinst⟩ := exists_of_mem_pending h.wellFormed hd h.content hx (h.pending x hx)
    rcases Layer.pending_loop hc hinst with rfl | rfl | htemplate
    · exact absurd hq.eq_of_nil hne
    · exact absurd (h.wellFormed.linked.route_right_unique hd hq hz) hnez
    · refine hexp.not_below_root h.wellFormed hd h.below hq ?_
      rwa [templateContents_eq h.wellFormed.linked hd, h.content]

/-- **The second expansion of a pass** closes the loop. -/
theorem HalfLooped.expandInner (h : HalfLooped z t) :
    ∃ created t' n, (expandNode z).on t = (.ok created, t') ∧ Loops n t' ∧
    ∀ x < t.count, ¬ t.Below t.root x → ¬ t'.Below t'.root x := by
  have hd : t.DistinctBelow z := h.siblingsDiffer.mono h.below
  have hlt := h.below.lt_count h.wellFormed.root_lt_count
  obtain ⟨created, t', hon, hexp, hcontent⟩ := expandNode_expands h.wellFormed hd hlt h.content rfl rfl
    (show levelNames Layer.inner.payload = .ok [["C"]] by cbv) (by decide) (by decide)
  have hwf := hexp.wellFormed h.wellFormed
  have hroot := hexp.below_root h.wellFormed h.below
  obtain ⟨n, hn⟩ : ∃ n, t'.Route z ["C", "P"] n := by
    by_contra hno
    have hnone := (Forest.content?_eq_none hwf.linked hexp.distinct).2 (not_exists.1 hno)
    have hloop := Layer.innerDone_append []
    rw [hcontent] at hnone
    rw [List.append_nil, show Layer.innerDone ["C", "P"] = none from hnone] at hloop
    cases hloop
  refine ⟨created, t', n, hon, ⟨hwf, hexp.siblingsDiffer h.wellFormed h.siblingsDiffer,
    hroot.trans ⟨_, hn⟩, ?_, fun x hx => ?_⟩, fun x hx hout hin => hout ?_⟩
  · funext q
    rw [← Forest.content?_append hwf.linked hexp.distinct hn, hcontent]
    exact Layer.innerDone_append q
  · by_cases hbelow : t'.Below z x
    · obtain ⟨q, c, hq, hc, hinst⟩ := exists_of_mem_pending hwf hexp.distinct hcontent hx hbelow
      obtain ⟨r, rfl⟩ := Layer.pending_innerDone hc hinst
      obtain ⟨b, hb, hr⟩ := hq.of_append
      rw [hwf.linked.route_right_unique hexp.distinct hn hb]
      exact ⟨r, hr⟩
    · obtain ⟨hold, hout⟩ := hexp.pending_outside h.wellFormed h.below hx hbelow
      exact absurd (h.pending x hold) hout
  · obtain ⟨q, hq⟩ := hin
    rw [hexp.same_root] at hq
    exact ⟨q, hexp.regrown.route_back h.wellFormed.linked hx hq⟩

theorem Loops.exists_inner (h : Loops n t) : ∃ z, t.Route n ["D"] z ∧ z ≠ n := by
  have hlinked := h.wellFormed.linked
  obtain ⟨z, hz⟩ : ∃ z, t.Route n ["D"] z := by
    by_contra hno
    have hnone := (Forest.content?_eq_none hlinked (h.siblingsDiffer.mono h.below)).2 (not_exists.1 hno)
    rw [h.content] at hnone
    cases hnone
  refine ⟨z, hz, fun heq => ?_⟩
  rw [heq] at hz
  exact absurd (hlinked.route_self hz) (by simp)

/-- **What is pending in the loop**: the branch first, then among others the node below it, each once. -/
theorem Loops.pending_eq (h : Loops n t) :
    ∃ z before after, t.Route n ["D"] z ∧ t.pending = n :: (before ++ z :: after) ∧
    ∀ x ∈ before ++ after, x ∈ t.pending ∧ x ≠ n ∧ x ≠ z := by
  obtain ⟨z, hz, hne⟩ := h.exists_inner
  obtain ⟨rest, hpending, hnotin, hnodup⟩ := pending_eq_cons h.wellFormed h.self_mem_pending h.pending
  have hzrest : z ∈ rest := (List.mem_cons.1 (hpending ▸ h.mem_pending_of_route hz rfl (by decide))).resolve_left hne
  obtain ⟨before, after, rfl⟩ := List.append_of_mem hzrest
  have hzonce : z ∉ before ∧ z ∉ after := by
    rw [List.nodup_append] at hnodup
    exact ⟨fun hm => hnodup.2.2 z hm z List.mem_cons_self rfl, (List.nodup_cons.1 hnodup.2.1).1⟩
  refine ⟨z, before, after, hz, hpending, fun x hx => ?_⟩
  have hin : x ∈ before ++ z :: after := by
    rw [List.mem_append] at hx ⊢
    exact hx.imp_right (List.mem_cons_of_mem _)
  refine ⟨hpending ▸ List.mem_cons_of_mem _ hin, ?_, ?_⟩
  · rintro rfl
    exact hnotin hin
  · rintro rfl
    exact (List.mem_append.1 hx).elim hzonce.1 hzonce.2

/-- **A pass over a tree in the loop succeeds and leaves one in the loop.** -/
theorem Loops.pass (h : Loops n t) (stats : ExpansionStats) :
    ∃ stats' t' n', (expandPass stats t.pending).on t = (.ok stats', t') ∧ Loops n' t' := by
  have hlinked := h.wellFormed.linked
  obtain ⟨z, before, after, hz, hpending, hother⟩ := h.pending_eq
  -- of all that is pending, only the branch and the node below it are still attached when their turn comes
  obtain ⟨created, t₁, hon, h₁, hle, hcut⟩ := h.expandOuter hz
  obtain ⟨created', t₂, n', hon', h₂, hout⟩ := h₁.expandInner
  have hdetached : ∀ x ∈ before ++ after, ¬ t₁.Below t₁.root x := by
    intro x hx
    obtain ⟨hx, hxn, hxz⟩ := hother x hx
    exact hcut x hx hxn hxz
  have hskip : ∀ x ∈ before, t₁.isAttached x = false := by
    intro x hx
    rw [← Bool.not_eq_true, isAttached_iff h₁.wellFormed.linked h₁.wellFormed.root_top]
    exact hdetached x (List.mem_append_left _ hx)
  have hskip' : ∀ x ∈ after, t₂.isAttached x = false := by
    intro x hx
    rw [← Bool.not_eq_true, isAttached_iff h₂.wellFormed.linked h₂.wellFormed.root_top]
    have hx := List.mem_append_right before hx
    have hlt := ((mem_pending hlinked).1 (hother x hx).1).1.lt_count h.wellFormed.root_lt_count
    exact hout x (Nat.lt_of_lt_of_le hlt hle) (hdetached x hx)
  refine ⟨{ stats with expanded := stats.expanded + 1 + 1, created := stats.created + created + created' },
    t₂, n', ?_, h₂⟩
  rw [hpending, expandPass_expand ((isAttached_iff hlinked h.wellFormed.root_top).2 h.below) hon, expandPass_skip hskip,
    expandPass_expand ((isAttached_iff h₁.wellFormed.linked h₁.wellFormed.root_top).2 h₁.below) hon',
    ← List.append_nil after, expandPass_skip hskip']
  rfl

/-! ## A build in the loop -/

open Layer

def instancesEntry (description : String) (instances : List Value) : Value :=
  .mapping [(.string "type", .string "branch"), (.string "description", .string description),
    (.string "instances", .list instances)]

def outerEntry : Value := instancesEntry "p" [.list [.string "D"], .list [.string "C", .string "P"]]

def innerEntry : Value := instancesEntry "z" [.string "C"]

def loopEntries : Mapping :=
  [(.string "A", instancesEntry "a" []), (.string "A.P", outerEntry), (.string "A.P.D", innerEntry),
    (.string "A.P.P", outerEntry), (.string "A.P.P.D", innerEntry)]

def loopTree : Tree where
  nodes := #[{ name := "A", payload := .branch "a", children := [1] },
    { name := "P", payload := outer.payload, parent := some 0, children := [2, 3] },
    { name := "D", payload := inner.payload, parent := some 1 },
    { name := "P", payload := outer.payload, parent := some 1, children := [4] },
    { name := "D", payload := inner.payload, parent := some 3 }]
  root := 0

theorem wellFormed_loopTree : loopTree.WellFormed := wellFormed_of_isOrdered (by decide)

theorem content?_loopTree : loopTree.content? 1 = loop := by
  have hpaths : loopTree.pathsWithin loopTree.count 1 = loopPaths := by decide
  refine (hpaths ▸ Forest.supportedBy_content? wellFormed_loopTree.linked).ext supportedBy_loop fun q hq => ?_
  simp only [loopPaths, List.mem_cons, List.not_mem_nil, or_false] at hq
  rcases hq with rfl | rfl | rfl | rfl
  all_goals rfl

theorem loops_loopTree : Loops 1 loopTree where
  wellFormed := wellFormed_loopTree
  siblingsDiffer := siblingsDiffer_of_isOrdered (by decide)
  below := .down .refl rfl
  content := content?_loopTree
  pending := by
    intro x hx
    have hall : ∀ x ∈ loopTree.pending, x ∈ loopTree.subtree 1 := by decide
    exact wellFormed_loopTree.linked.mem_subtree.1 (hall x hx)

end Tree

/-- **When the expansion of a built tree ends**: just when the trees that its passes lead through stay below some
height, and always when its branches are separate.  A success leaves nothing pending. -/
theorem expand_build_ends {r : Registry} {mode : BuildMode} {data : Mapping} {o : BuildOutcome}
    (h : build r mode data = .ok o) :
    ((∃ result, o.tree.expand = some result) ↔ ∃ d, ∀ k u,
      Tree.afterPasses k {} o.tree = some u → u.height u.root ≤ d) ∧
      (o.tree.Separate → ∃ result, o.tree.expand = some result) ∧
      ∀ stats u, o.tree.expand = some (u, .ok stats) → u.pending = [] := by
  obtain ⟨ht, hs⟩ := wellFormed_of_build h
  refine ⟨Tree.expand_ends_iff ht.toRooted, fun hsep => ?_, fun _ _ hu => Tree.pending_of_settle hu⟩
  obtain ⟨d, hd⟩ := Tree.exists_nests ht hs
  exact Tree.settle_of_separate ht hs (hsep.contents ht hs) hd

/-- Doors with a left one declared and a template beside it. -/
def Tree.doorEntries : Mapping :=
  [(.string "Cabin", instancesEntry "cabin" []),
    (.string "Cabin.Door", instancesEntry "doors" [.list [.string "Left", .string "Right"]]),
    (.string "Cabin.Door.Left", instancesEntry "the left one" []),
    (.string "Cabin.Door.Window", instancesEntry "window" [])]

theorem expand_doors_ends : ∃ o, build {} .strict Tree.doorEntries = .ok o ∧ ∃ result, o.tree.expand = some result := by
  have hsep : Tree.doors.Separate := by
    intro n hn levels hinst hlevels
    have hn : n = 1 := by
      have hall : ∀ n ∈ Tree.doors.preorder, n = 1 ∨ (Tree.doors.node n).payload.instances = [] := by decide
      exact (hall n hn).resolve_right hinst
    subst hn
    have : Tree.levelNames (Tree.doors.node 1).payload = .ok [["Left", "Right"]] := by cbv
    rw [this, Except.ok.injEq] at hlevels
    subst hlevels
    exact ⟨by decide, by decide⟩
  have hbuild : build {} .strict Tree.doorEntries = .ok ⟨Tree.doors, []⟩ := rfl
  exact ⟨_, hbuild, (expand_build_ends hbuild).2.1 hsep⟩

/-- **Not every expansion ends**: there are entries from which every pass makes a tree that needs another one. -/
theorem expand_endless : ∃ o, build {} .strict Tree.loopEntries = .ok o ∧ o.tree.expand = none ∧
    ∀ k, ∃ u, Tree.afterPasses k {} o.tree = some u ∧ u.pending ≠ [] := by
  have hpending : ∀ t : Tree, (∃ n, t.Loops n) → t.pending ≠ [] := fun t ⟨n, h⟩ => List.ne_nil_of_mem h.self_mem_pending
  have hpass : ∀ stats t, (∃ n, Tree.Loops n t) →
      ∃ stats' t', (Tree.expandPass stats t.pending).on t = (.ok stats', t') ∧ ∃ n, Tree.Loops n t' := by
    rintro stats t ⟨n, h⟩
    obtain ⟨stats', t', n', hon, h'⟩ := h.pass stats
    exact ⟨stats', t', hon, n', h'⟩
  refine ⟨⟨Tree.loopTree, []⟩, rfl, Tree.settle_eq_none hpending hpass ⟨1, Tree.loops_loopTree⟩, fun k => ?_⟩
  obtain ⟨u, hu, h⟩ := Tree.exists_afterPasses hpending hpass ⟨1, Tree.loops_loopTree⟩
  exact ⟨u, hu, hpending u h⟩

end SignalCatalog
