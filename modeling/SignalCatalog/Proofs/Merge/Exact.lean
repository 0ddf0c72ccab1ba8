import SignalCatalog.Proofs.Build.Connect
import SignalCatalog.Proofs.Expand.Intact
import SignalCatalog.Proofs.Merge.Rooted
import SignalCatalog.Proofs.Merge.Underway
/-!
# What a merge makes of the base

A merge that succeeds refines the base nodes that the overlay has of its own, copies those that the base lacks, and
touches nothing else.  It finds no place for a node only if the overlay begins with another name.  An overlay that lists
a node twice brings in copies of one name.
-/
namespace SignalCatalog
namespace Tree

variable {r : Registry} {b o u t : Tree} {x y id : Nat} {q : List String}
  {done rest grafted : List Nat} {stats : MergeStats}

/-! ## Overlays that begin elsewhere -/

theorem mergeNodes_placeholders (h : ∀ y ∈ rest, (o.node y).autogenerated = true) :
    (mergeNodes r o stats [] rest).on u = (.ok { stats with skipped := stats.skipped + rest.length }, u) := by
  induction rest generalizing stats with
  | nil => rfl
  | cons id rest ih =>
    obtain ⟨hid, hrest⟩ := List.forall_mem_cons.1 h
    rw [mergeNodes_auto (by simp) hid, ih hrest]
    simp [Nat.add_comm, Nat.add_left_comm]

theorem mergeNodes_foreign (stats : MergeStats) (hfirst : ∀ y ∈ rest, QualifiedName.first (o.fqn y) ≠ u.rootName)
    (h : ∃ y ∈ rest, (o.node y).autogenerated = false) :
    ∃ f, (mergeNodes r o stats [] rest).on u = (.error (.foreignRoot f u.rootName), u) := by
  induction rest generalizing stats with
  | nil => simp at h
  | cons id rest ih =>
    obtain ⟨hid, hrest⟩ := List.forall_mem_cons.1 hfirst
    cases hauto : (o.node id).autogenerated with
    | true =>
      rw [mergeNodes_auto (by simp) hauto]
      refine ih _ hrest ?_
      obtain ⟨y, hy, hyauto⟩ := h
      refine ⟨y, (List.mem_cons.1 hy).resolve_left ?_, hyauto⟩
      rintro rfl
      rw [hauto] at hyauto
      cases hyauto
    | false => exact ⟨_, mergeNodes_nowhere (by simp) hauto (find?_of_first_ne hid) (ensureParent_foreign hid)⟩

/-! ## The run -/

/-- **A payload of the base that the overlay's cannot refine.** -/
def Refused (r : Registry) (b o : Tree) (e : NodeError) : Prop :=
  ∃ y ∈ o.preorder, (o.node y).autogenerated = false ∧ e.fqn = o.fqn y ∧
    ∃ x, b.find? (o.fqn y) = some x ∧ Payload.refine r (b.node x).payload (o.node y).payload = .error e.cause

namespace Merging.Underway

variable (h : Merging.Underway r b o done grafted u) (hm : Aligned b o)
include h hm

theorem rootName_eq : u.rootName = o.rootName := by
  rw [hm.same_name, rootName, rootName, h.same_root, h.grown.name hm.base.root_lt_count]

theorem segments_fqn (hid : o.Route o.root q id) : QualifiedName.segments (o.fqn id) = u.rootName :: q := by
  rw [h.rootName_eq hm, hm.overlay_found.segments_fqn hm.overlay.toRooted hid]

theorem find?_eq_some (hid : o.Route o.root q id) : u.find? (o.fqn id) = some x ↔ u.Route u.root q x :=
  Tree.find?_eq_some h.rooted.linked h.siblingsDiffer (h.segments_fqn hm hid)

theorem counted_along (hsplit : o.preorder = done ++ id :: rest) (hid : o.Route o.root q id) (hg : id ∈ grafted) :
    refines b o id = false ∧ isGraftTop b o id = false ∧ isSkipped b o id = false := by
  obtain ⟨z, hz, hz', hbelow⟩ := (h.mem_grafted id).1 hg
  have hzin : z ∈ o.preorder := by simp [hsplit, hz]
  have halong := hm.comesAlong_iff.2 ⟨z, hzin, hz', hbelow⟩
  obtain ⟨p, hp⟩ := (mem_preorder hm.overlay.linked).1 hzin
  refine ⟨?_, ?_, by simp [isSkipped, halong]⟩
  · obtain ⟨s, hs⟩ := hbelow
    have hfree := hm.contents_eq_none hp hz' s
    rw [hm.overlay.linked.route_unique (hp.trans hs) hid] at hfree
    rw [← Bool.not_eq_true, hm.refines_iff hid]
    simp [hfree]
  · rw [← Bool.not_eq_true, hm.isGraftTop_iff]
    rintro ⟨-, htop⟩
    have heq := htop z hzin hz' hbelow
    exact not_mem_done hm.overlay hsplit (heq ▸ hz)

theorem counted_placeholder (hsplit : o.preorder = done ++ id :: rest)
    (hauto : (o.node id).autogenerated = true) (hg : id ∉ grafted) :
    refines b o id = false ∧ isGraftTop b o id = false ∧ isSkipped b o id = true := by
  refine ⟨by simp [refines, hauto], by simp [isGraftTop, isNew, hauto], ?_⟩
  rw [isSkipped, hauto, Bool.true_and, Bool.not_eq_true', ← Bool.not_eq_true, hm.comesAlong_iff]
  rintro ⟨z, hz, hz', hbelow⟩
  have hne : z ≠ id := by
    rintro rfl
    simp [isNew, hauto] at hz'
  exact hg ((h.mem_grafted id).2 ⟨z, mem_done_of_below hm.overlay hsplit hz hbelow hne, hz', hbelow⟩)

theorem counted_refined (hid : o.Route o.root q id) (hauto : (o.node id).autogenerated = false) (hg : id ∉ grafted)
    (hx : u.Route u.root q x) : refines b o id = true ∧ isGraftTop b o id = false ∧ isSkipped b o id = false := by
  have hsome : u.contents q ≠ none := by simp [contents, Forest.content?_of_route h.rooted.linked h.siblingsDiffer hx]
  have hrefines := (hm.refines_iff hid).2 ⟨hauto, h.contents_ne_none hm hid hauto hg hsome⟩
  refine ⟨hrefines, ?_, by simp [isSkipped, hauto]⟩
  rw [refines, Bool.and_eq_true, Option.isSome_iff_ne_none] at hrefines
  simp [isGraftTop, isNew, hrefines.2]

theorem counted_new (hsplit : o.preorder = done ++ id :: rest) (hid : o.Route o.root q id)
    (hauto : (o.node id).autogenerated = false) (hg : id ∉ grafted) (hfree : u.contents q = none) :
    refines b o id = false ∧ isGraftTop b o id = true ∧ isSkipped b o id = false := by
  have hbfree := h.contents_base hm hsplit hid hfree
  refine ⟨?_, h.isGraftTop_of_new hm hsplit ((hm.isNew_iff hid).2 ⟨hauto, hbfree⟩) hg, by simp [isSkipped, hauto]⟩
  rw [← Bool.not_eq_true, hm.refines_iff hid]
  simp [hbfree]

/-- **A node that the base lacks is copied below its parent**, which is there or is made. -/
theorem graft_on (hsplit : o.preorder = done ++ id :: rest) (hid : o.Route o.root q id)
    (hauto : (o.node id).autogenerated = false) (hg : id ∉ grafted) (hfree : u.contents q = none) :
    ∃ u', (mergeNodes r o stats grafted (id :: rest)).on u =
        (mergeNodes r o { stats with added := stats.added + 1 } (grafted ++ o.subtree id) rest).on u' ∧
      Merging.Underway r b o (done ++ [id]) (grafted ++ o.subtree id) u' := by
  have hfind : u.find? (o.fqn id) = none := by
    rw [Option.eq_none_iff_forall_ne_some]
    intro x hx
    rw [contents, Forest.content?_of_route h.rooted.linked h.siblingsDiffer ((h.find?_eq_some hm hid).1 hx)] at hfree
    cases hfree
  rcases List.eq_nil_or_concat q with rfl | ⟨p, name, rfl⟩
  · -- the roots have one name, so the root of the overlay is found
    simp [contents] at hfree
  rw [List.concat_eq_append] at hid hfree
  obtain ⟨w, hw, -, -⟩ := hid.of_snoc
  obtain ⟨x, u', hon, hensured⟩ := ensureParent_on (o.fqn id) h.rooted h.siblingsDiffer (h.segments_fqn hm hw)
  rw [← hm.overlay_found.parent?_fqn hm.overlay.toRooted hid hw] at hon
  exact ⟨_, mergeNodes_add hg hauto hfind hon, h.graft_step hm hsplit hid hg hfree hensured hauto⟩

theorem refused (hsplit : o.preorder = done ++ id :: rest) (hid : o.Route o.root q id)
    (hauto : (o.node id).autogenerated = false) (hg : id ∉ grafted) (hx : u.Route u.root q x) {cause : PayloadError}
    (herror : Payload.refine r (u.node x).payload (o.node id).payload = .error cause) :
    Refused r b o { fqn := o.fqn id, cause } := by
  have hux := Forest.content?_of_route h.rooted.linked h.siblingsDiffer hx
  obtain ⟨c, hc⟩ := Option.ne_none_iff_exists'.1 (h.contents_ne_none hm hid hauto hg (by simp [hux]))
  have hcx : (u.node x).content = c := Option.some_inj.1 (hux.symm.trans (h.contents_eq hm hsplit hid hc))
  have hbd := hm.base_found.siblingsDiffer hm.base
  obtain ⟨z, hz, hcz⟩ := (Forest.content?_eq_some hm.base.linked hbd).1 hc
  refine ⟨id, by simp [hsplit], hauto, rfl, z, ?_, ?_⟩
  · rw [hm.find?_base hid]
    exact (hm.base.linked.descend?_eq_some hbd).2 hz
  · rw [← herror, show (b.node z).payload = (u.node x).payload from congrArg Content.payload (hcz.trans hcx.symm)]

/-- **The steps of a merge keep to the description**, and the only failure is that of a payload of the base. -/
theorem run (hc : Counts b o done stats) (hsplit : o.preorder = done ++ rest) :
    (∃ stats' u' grafted', (mergeNodes r o stats grafted rest).on u = (.ok stats', u') ∧
      Merging.Underway r b o o.preorder grafted' u' ∧ Counts b o o.preorder stats') ∨
    ∃ e u', (mergeNodes r o stats grafted rest).on u = (.error (.node e), u') ∧ Refused r b o e := by
  induction rest generalizing done grafted stats u with
  | nil =>
    rw [List.append_nil] at hsplit
    exact .inl ⟨stats, u, grafted, rfl, hsplit ▸ h, hsplit ▸ hc⟩
  | cons id rest ih =>
    have hin : id ∈ o.preorder := by simp [hsplit]
    obtain ⟨q, hid⟩ := (mem_preorder hm.overlay.linked).1 hin
    have hsplit' : o.preorder = (done ++ [id]) ++ rest := by simp [hsplit]
    have hsnoc := hc.snoc id
    -- a node came along with one above it, is passed over, comes in, or refines one that is there: each kind is
    -- counted once
    by_cases hg : id ∈ grafted
    · obtain ⟨hrefines, htop, hskipped⟩ := h.counted_along hm hsplit hid hg
      rw [mergeNodes_grafted hg]
      apply ih (h.pass hm (fun _ => hg) htop hrefines) _ hsplit'
      simpa [hrefines, htop, hskipped] using hsnoc
    cases hauto : (o.node id).autogenerated with
    | true =>
      obtain ⟨hrefines, htop, hskipped⟩ := h.counted_placeholder hm hsplit hauto hg
      rw [mergeNodes_auto hg hauto]
      apply ih (h.pass hm (by simp [isNew, hauto]) htop hrefines) _ hsplit'
      simpa [hrefines, htop, hskipped] using hsnoc
    | false =>
      by_cases hfree : u.contents q = none
      · obtain ⟨hrefines, htop, hskipped⟩ := h.counted_new hm hsplit hid hauto hg hfree
        obtain ⟨u', hon, hunderway⟩ := h.graft_on hm hsplit hid hauto hg hfree
        rw [hon]
        apply ih hunderway _ hsplit'
        simpa [hrefines, htop, hskipped] using hsnoc
      · rw [contents, Forest.content?_eq_none h.rooted.linked h.siblingsDiffer, not_forall_not] at hfree
        obtain ⟨x, hx⟩ := hfree
        obtain ⟨hrefines, htop, hskipped⟩ := h.counted_refined hm hid hauto hg hx
        rw [mergeNodes_overwrite hg hauto ((h.find?_eq_some hm hid).2 hx)]
        cases hmerged : Payload.refine r (u.node x).payload (o.node id).payload with
        | error cause => exact .inr ⟨_, _, rfl, h.refused hm hsplit hid hauto hg hx hmerged⟩
        | ok merged =>
          apply ih (h.refine_step hm hsplit hid hauto hg hx hmerged) _ hsplit'
          simpa [hrefines, htop, hskipped] using hsnoc

end Merging.Underway

/-! ## The result -/

/-- **A base with an overlay merged into it**, told from the two trees as they were. -/
structure Merged (r : Registry) (b o : Tree) (stats : MergeStats) (t : Tree) : Prop extends Kept b o t where
  rooted : t.Rooted
  nodup : b.ChildrenNodup → t.ChildrenNodup
  selfFound : t.SelfFound
  refined : ∀ y ∈ o.preorder, (o.node y).autogenerated = false → ∀ x, b.find? (o.fqn y) = some x →
    t.find? (o.fqn y) = some x ∧
      ∃ p, Payload.refine r (b.node x).payload (o.node y).payload = .ok p ∧ (t.node x).content = ⟨p, false⟩
  copied : ∀ y ∈ o.preorder, (o.node y).autogenerated = false → b.find? (o.fqn y) = none →
    ∃ x, t.find? (o.fqn y) = some x ∧ (t.node x).content = ⟨(o.node y).payload, false⟩
  /-- Every other node that comes in stands where the overlay has a placeholder, and is a branch if that is one. -/
  others : ∀ x ∈ t.preorder, x ∉ b.preorder → (∀ y ∈ o.preorder, (o.node y).autogenerated = false → o.fqn y ≠ t.fqn x) →
    ∃ y ∈ o.preorder, (o.node y).autogenerated = true ∧ o.fqn y = t.fqn x ∧ (t.node x).autogenerated = true ∧
      ((t.node x).payload = .placeholder ∨ (t.node x).payload = (o.node y).payload) ∧
      ((o.node y).payload.kind = .branch → (t.node x).payload.kind = .branch)
  overwritten : stats.overwritten = (o.preorder.filter (refines b o)).length
  added : stats.added = (graftTops b o).length
  size : stats.overwritten + stats.skipped + ((graftTops b o).map o.size).sum = o.nodeCount

theorem merged_placeholders (h : Mergeable b o) (hauto : ∀ y ∈ o.preorder, (o.node y).autogenerated = true) :
    Merged r b o { skipped := o.preorder.length } b where
  same_root := rfl
  stays := fun x hx => ⟨hx, rfl, rfl⟩
  kept := fun x _ => rfl
  rooted := h.base
  nodup := id
  selfFound := h.base_found
  refined := fun y hy hown => by rw [hauto y hy] at hown; cases hown
  copied := fun y hy hown => by rw [hauto y hy] at hown; cases hown
  others := fun x hx hnot => absurd hx hnot
  overwritten := by
    rw [List.filter_eq_nil_iff.2 fun y hy => by simp [refines, hauto y hy]]
    rfl
  added := by
    rw [graftTops, List.filter_eq_nil_iff.2 fun y hy => by simp [isGraftTop, isNew, hauto y hy]]
    rfl
  size := by
    rw [graftTops, List.filter_eq_nil_iff.2 fun y hy => by simp [isGraftTop, isNew, hauto y hy]]
    simp [nodeCount]

namespace Merging.Underway

variable (h : Merging.Underway r b o o.preorder grafted t) (hm : Aligned b o)
include h

theorem route_base (hx : b.Route b.root q x) : t.Route t.root q x := h.same_root ▸ h.grown.route hx

include hm

theorem fqn_eq (hx : t.Route t.root q x) (hy : o.Route o.root q y) : o.fqn y = t.fqn x := by
  rw [Forest.fqn_of_route hm.overlay.linked hm.overlay.root_top hy,
    Forest.fqn_of_route h.rooted.linked h.rooted.root_top hx]
  exact congrArg (fun name => QualifiedName.ofSegments (name :: q)) (h.rootName_eq hm).symm

theorem selfFound : t.SelfFound := by
  refine selfFound_of_dotFree h.rooted h.siblingsDiffer fun q x hx => ?_
  rw [h.rootName_eq hm]
  by_cases hb : b.contents q = none
  · obtain ⟨y, hy, -⟩ := h.fresh q hb (by simp [contents, Forest.content?_of_route h.rooted.linked h.siblingsDiffer hx])
    exact hm.overlay_found.dotFree hm.overlay.toRooted hy
  · obtain ⟨c, hc⟩ := Option.ne_none_iff_exists'.1 hb
    obtain ⟨y, hy, -⟩ := (Forest.content?_eq_some hm.base.linked (hm.base_found.siblingsDiffer hm.base)).1 hc
    rw [hm.same_name]
    exact hm.base_found.dotFree hm.base hy

/-- **The overlay is counted up**: every node is refined, passed over, or copied with one top. -/
theorem size_eq (hc : Counts b o o.preorder stats) :
    stats.overwritten + stats.skipped + ((graftTops b o).map o.size).sum = o.nodeCount := by
  have hgrafted : ((graftTops b o).map o.size).sum = (o.preorder.filter (comesAlong b o)).length := by
    rw [graftTops, ← h.grafted_length]
    refine List.Perm.length_eq ((List.perm_ext_iff_of_nodup h.grafted_nodup
      (hm.overlay.nodup_preorder.filter _)).2 fun y => ?_)
    rw [h.mem_grafted, List.mem_filter, hm.comesAlong_iff, iff_and_self]
    rintro ⟨z, hz, -, hzy⟩
    exact (mem_preorder hm.overlay.linked).2 (((mem_preorder hm.overlay.linked).1 hz).trans hzy)
  have hskipped : ((o.preorder.filter fun y => !comesAlong b o y).filter fun y => (o.node y).autogenerated) =
      o.preorder.filter (isSkipped b o) := List.filter_filter
  have hrefines : ((o.preorder.filter fun y => !comesAlong b o y).filter fun y => !(o.node y).autogenerated) =
      o.preorder.filter (refines b o) := by
    rw [List.filter_filter]
    refine List.filter_congr fun y hy => ?_
    obtain ⟨q, hq⟩ := (mem_preorder hm.overlay.linked).1 hy
    have hnot : comesAlong b o y = false ↔ ¬ ∃ z ∈ o.preorder, isNew b o z = true ∧ o.Below z y := by
      rw [← hm.comesAlong_iff, Bool.not_eq_true]
    rw [Bool.eq_iff_iff, hm.refines_iff hq, Bool.and_eq_true, Bool.not_eq_true', Bool.not_eq_true', hnot]
    refine and_congr_right fun hown => ⟨fun hnot hfree => hnot ⟨y, hy, (hm.isNew_iff hq).2 ⟨hown, hfree⟩, .refl⟩, ?_⟩
    rintro hsome ⟨z, hz, hz', ⟨s, hs⟩⟩
    obtain ⟨p, hp⟩ := (mem_preorder hm.overlay.linked).1 hz
    exact hsome (hm.overlay.linked.route_unique (hp.trans hs) hq ▸ hm.contents_eq_none hp hz' s)
  have hall := List.length_eq_length_filter_add (l := o.preorder) (comesAlong b o)
  have hrest := List.length_eq_length_filter_add (l := o.preorder.filter fun y => !comesAlong b o y) fun y =>
    (o.node y).autogenerated
  rw [hskipped, hrefines] at hrest
  rw [hc.overwritten, hc.skipped, hgrafted, nodeCount]
  omega

theorem content_refined (hx : b.Route b.root q x) (hyin : y ∈ o.preorder) (hy : o.Route o.root q y)
    (hown : (o.node y).autogenerated = false) :
    ∃ p, Payload.refine r (b.node x).payload (o.node y).payload = .ok p ∧ (t.node x).content = ⟨p, false⟩ := by
  have hold := Forest.content?_of_route hm.base.linked (hm.base_found.siblingsDiffer hm.base) hx
  have hnew := Forest.content?_of_route h.rooted.linked h.siblingsDiffer (h.route_base hx)
  obtain ⟨c, hc, hdone, -⟩ := h.old q _ hold
  obtain ⟨hrefine, hauto⟩ := hdone y hyin hy hown
  refine ⟨c.payload, hrefine, ?_⟩
  rw [Option.some_inj.1 (hnew.symm.trans hc), ← hauto]

theorem contents_eq_none (hx : t.Route t.root q x) (hnot : x ∉ b.preorder) : b.contents q = none := by
  by_contra hsome
  obtain ⟨c, hc⟩ := Option.ne_none_iff_exists'.1 hsome
  obtain ⟨z, hz, -⟩ := (Forest.content?_eq_some hm.base.linked (hm.base_found.siblingsDiffer hm.base)).1 hc
  rw [h.rooted.linked.route_right_unique h.siblingsDiffer hx (h.route_base hz)] at hnot
  exact hnot ((mem_preorder hm.base.linked).2 ⟨q, hz⟩)

theorem merged (hkept : Kept b o t) (hc : Counts b o o.preorder stats) : Merged r b o stats t where
  toKept := hkept
  rooted := h.rooted
  nodup := h.nodup
  selfFound := h.selfFound hm
  refined := by
    intro y hy hown x hx
    obtain ⟨q, hq⟩ := (mem_preorder hm.overlay.linked).1 hy
    have hbd := hm.base_found.siblingsDiffer hm.base
    have hbx : b.Route b.root q x := (hm.base.linked.descend?_eq_some hbd).1 (hm.find?_base hq ▸ hx)
    exact ⟨(h.find?_eq_some hm hq).2 (h.route_base hbx), h.content_refined hm hbx hy hq hown⟩
  copied := by
    intro y hy hown hnone
    obtain ⟨q, hq⟩ := (mem_preorder hm.overlay.linked).1 hy
    have hnew : isNew b o y = true := by simp [isNew, hown, hnone]
    have hcopy := h.copied y ((h.mem_grafted y).2 ⟨y, hy, hnew, .refl⟩) q hq
    obtain ⟨x, hx, hcontent⟩ := (Forest.content?_eq_some h.rooted.linked h.siblingsDiffer).1 hcopy
    exact ⟨x, (h.find?_eq_some hm hq).2 hx, by rw [hcontent, ← hown]; rfl⟩
  others := by
    intro x hx hnot hno
    obtain ⟨q, hq⟩ := (mem_preorder h.rooted.linked).1 hx
    have hcontent := Forest.content?_of_route h.rooted.linked h.siblingsDiffer hq
    obtain ⟨y, hy, hplace⟩ := h.fresh q (h.contents_eq_none hm hq hnot) (by simp [contents, hcontent])
    have hyin := (mem_preorder hm.overlay.linked).2 ⟨q, hy⟩
    have hname := h.fqn_eq hm hq hy
    have hauto : (o.node y).autogenerated = true := by
      by_contra hown
      exact hno y hyin (by simpa using hown) hname
    refine ⟨y, hyin, hauto, hname, ?_⟩
    rcases hplace with hcopied | ⟨-, hplaceholder⟩
    · have hsame := Option.some_inj.1 (hcontent.symm.trans (h.copied y hcopied q hy))
      have hpayload : (t.node x).payload = (o.node y).payload := congrArg Content.payload hsame
      exact ⟨(congrArg Content.autogenerated hsame).trans hauto, .inr hpayload, fun hbranch => hpayload ▸ hbranch⟩
    · have hsame := Option.some_inj.1 (hcontent.symm.trans hplaceholder)
      have hpayload : (t.node x).payload = .placeholder := congrArg Content.payload hsame
      exact ⟨congrArg Content.autogenerated hsame, .inl hpayload, fun _ => hpayload ▸ rfl⟩
  overwritten := hc.overwritten
  added := hc.added
  size := h.size_eq hm hc

end Merging.Underway

theorem merge_eq : merge r b o =
    (((mergeNodes r o {} [] o.preorder).on b).2, ((mergeNodes r o {} [] o.preorder).on b).1) := rfl

/-- **A merge of an overlay that begins where the base does** visits all nodes, or ends at a payload that is refused. -/
theorem merge_run (r : Registry) (hm : Aligned b o) :
    (∃ t stats grafted, merge r b o = (t, .ok stats) ∧ Merging.Underway r b o o.preorder grafted t ∧
      Counts b o o.preorder stats) ∨
    ∃ t e, merge r b o = (t, .error (.node e)) ∧ Refused r b o e := by
  have hstart : Counts b o [] {} := ⟨rfl, rfl, rfl⟩
  rw [merge_eq]
  rcases (Merging.Underway.start (r := r) hm.toMergeable).run hm hstart (List.nil_append o.preorder).symm with
    ⟨stats, t, grafted, hon, hdone, hcounts⟩ | ⟨e, t, hon, hrefused⟩
  · rw [hon]
    exact .inl ⟨t, stats, grafted, rfl, hdone, hcounts⟩
  · rw [hon]
    exact .inr ⟨t, e, rfl, hrefused⟩

/-- **A merge of an overlay that begins elsewhere** leaves the base as it is.  It fails at a node of its own, if
there is one. -/
theorem merge_elsewhere (r : Registry) (ho : o.Rooted) (hfound : o.SelfFound) (hname : o.rootName ≠ b.rootName) :
    (∃ f, merge r b o = (b, .error (.foreignRoot f b.rootName)) ∧ ∃ y ∈ o.preorder, (o.node y).autogenerated = false) ∨
    merge r b o = (b, .ok { skipped := o.preorder.length }) ∧ ∀ y ∈ o.preorder, (o.node y).autogenerated = true := by
  have hfirst : ∀ y ∈ o.preorder, QualifiedName.first (o.fqn y) ≠ b.rootName := by
    intro y hy
    obtain ⟨q, hq⟩ := (mem_preorder ho.linked).1 hy
    rwa [QualifiedName.first_of_segments (hfound.segments_fqn ho hq)]
  rw [merge_eq]
  by_cases hown : ∃ y ∈ o.preorder, (o.node y).autogenerated = false
  · obtain ⟨f, hon⟩ := mergeNodes_foreign (r := r) {} hfirst hown
    rw [hon]
    exact .inl ⟨f, rfl, hown⟩
  · have hauto : ∀ y ∈ o.preorder, (o.node y).autogenerated = true := by
      intro y hy
      by_contra hnot
      exact hown ⟨y, hy, by simpa using hnot⟩
    rw [mergeNodes_placeholders hauto]
    exact .inr ⟨by simp, hauto⟩

/-- **A merge that succeeds** gives a base as described. -/
theorem merged_of_merge (h : Mergeable b o) (hmerge : merge r b o = (t, .ok stats)) : Merged r b o stats t := by
  by_cases hname : o.rootName = b.rootName
  · have hm : Aligned b o := ⟨h, hname⟩
    have hkept := merge_kept r h.base h.overlay.toRooted
    rcases merge_run r hm with ⟨t', stats', grafted, hon, hdone, hcounts⟩ | ⟨t', e, hon, -⟩
    · rw [hon] at hmerge hkept
      cases hmerge
      exact hdone.merged hm hkept hcounts
    · rw [hon] at hmerge
      cases hmerge
  · rcases merge_elsewhere r h.overlay.toRooted h.overlay_found hname with ⟨f, hon, -⟩ | ⟨hon, hauto⟩
    · rw [hon] at hmerge
      cases hmerge
    · rw [hon] at hmerge
      cases hmerge
      exact merged_placeholders h hauto

/-- **What a merge does**: it gives a base as described, if the overlay lists no node twice, and keeps what is not
declared in any case.  It has no place for a node just when the overlay begins elsewhere and has a node of its own, and
then the base is as it was. -/
theorem merge_exact (r : Registry) {base overlay : Tree} (hb : base.Rooted) (ho : overlay.Rooted)
    (hbase : base.SelfFound) (hoverlay : overlay.SelfFound) :
    (overlay.ChildrenNodup → ∀ t stats, merge r base overlay = (t, .ok stats) → Merged r base overlay stats t) ∧
    (∀ t result, merge r base overlay = (t, result) → Kept base overlay t) ∧
    ((∃ t f n, merge r base overlay = (t, .error (.foreignRoot f n))) ↔
      base.rootName ≠ overlay.rootName ∧ ∃ y ∈ overlay.preorder, (overlay.node y).autogenerated = false) ∧
    ∀ t f n, merge r base overlay = (t, .error (.foreignRoot f n)) → t = base := by
  refine ⟨fun hnodup t stats hmerge => merged_of_merge ⟨hb, ⟨ho, hnodup⟩, hbase, hoverlay⟩ hmerge,
    fun t result hmerge => ?_, ?_⟩
  · have hkept := merge_kept r hb ho
    rwa [hmerge] at hkept
  by_cases hname : overlay.rootName = base.rootName
  · have hnot : ∀ t f n, merge r base overlay ≠ (t, .error (.foreignRoot f n)) := fun t f n hmerge =>
      merge_ne_foreign hb ho hoverlay hname (congrArg Prod.snd hmerge)
    exact ⟨iff_of_false (fun ⟨t, f, n, hmerge⟩ => hnot t f n hmerge) fun hboth => hboth.1 hname.symm,
      fun t f n hmerge => absurd hmerge (hnot t f n)⟩
  · rcases merge_elsewhere r ho hoverlay hname with ⟨f, hon, hown⟩ | ⟨hon, hauto⟩
    · rw [hon]
      refine ⟨iff_of_true ⟨_, _, _, rfl⟩ ⟨Ne.symm hname, hown⟩, fun t f n heq => ?_⟩
      cases heq
      rfl
    · rw [hon]
      refine ⟨iff_of_false (by simp) ?_, by simp⟩
      rintro ⟨-, y, hy, hown⟩
      rw [hauto y hy] at hown
      cases hown

def cabin : Tree where
  nodes := #[
    { name := "Cabin", payload := .branch "cabin", children := [1] },
    { name := "Door", payload := .branch "door", parent := some 0, children := [2] },
    { name := "Window", payload := .branch "window", parent := some 1 }]
  root := 0

def fittings : Tree where
  nodes := #[
    { name := "Cabin", payload := .placeholder, autogenerated := true, children := [1, 3] },
    { name := "Door", payload := .placeholder, autogenerated := true, parent := some 0, children := [2] },
    { name := "Window", payload := .branch "tinted window", parent := some 1 },
    { name := "Seat", payload := .placeholder, autogenerated := true, parent := some 0, children := [4] },
    { name := "Heater", payload := .branch "heater", parent := some 3 }]
  root := 0

theorem merge_fittings : ∃ t, merge {} cabin fittings = (t, .ok { overwritten := 1, added := 1, skipped := 3 }) ∧
    Merged {} cabin fittings { overwritten := 1, added := 1, skipped := 3 } t := by
  have hb : cabin.WellFormed := wellFormed_of_isOrdered (by decide)
  have ho : fittings.WellFormed := wellFormed_of_isOrdered (by decide)
  have hbase : cabin.SelfFound := by unfold SelfFound; decide
  have hoverlay : fittings.SelfFound := by unfold SelfFound; decide
  have hrefined : Payload.refine {} (cabin.node 2).payload (fittings.node 2).payload = .ok (.branch "tinted window") :=
    rfl
  obtain ⟨x, u, hparent, -⟩ := ensureParent_on (fittings.fqn 4) (u := cabin.declareAt 2 (.branch "tinted window"))
    (wellFormed_of_isOrdered (by decide)).toRooted (siblingsDiffer_of_isOrdered (by decide))
    (show QualifiedName.segments "Cabin.Seat" = "Cabin" :: ["Seat"] by cbv)
  have hmerge : ∃ t, merge {} cabin fittings = (t, .ok { overwritten := 1, added := 1, skipped := 3 }) := by
    rw [merge_eq, show fittings.preorder = [0, 1, 2, 3, 4] by decide, mergeNodes_auto (by decide) rfl,
      mergeNodes_auto (by decide) rfl, mergeNodes_overwrite (by decide) rfl
        (show cabin.find? (fittings.fqn 2) = some 2 by cbv), hrefined]
    dsimp only
    rw [mergeNodes_auto (by decide) rfl, mergeNodes_add (by decide) rfl (by cbv) hparent]
    exact ⟨_, rfl⟩
  obtain ⟨t, hmerge⟩ := hmerge
  exact ⟨t, hmerge, (merge_exact {} hb.toRooted ho.toRooted hbase hoverlay).1 ho.children_nodup t _ hmerge⟩

/-! ### An overlay that lists a node twice -/

def rowsEntries : Mapping := [(.string "Cabin.Door", instancesEntry "door" [.string "Row", .string "Row"])]

def rows : Tree where
  nodes := #[
    { name := "Door", payload := { common := { description := "door" }, body := .branch [⟨["Row", "Row"]⟩] },
      parent := some 1 },
    { name := "Cabin", payload := .placeholder, autogenerated := true, children := [0] }]
  root := 1

def rowsDone : Tree where
  nodes := #[
    { name := "Door", payload := .branch "door", parent := some 1, children := [2, 2] },
    { name := "Cabin", payload := .placeholder, autogenerated := true, children := [0] },
    { name := "Row", payload := .branch "door", parent := some 0 }]
  root := 1

def cabinRows : Tree where
  nodes := #[
    { name := "Cabin", payload := .branch "cabin", children := [1] },
    { name := "Door", payload := .branch "door", parent := some 0, children := [2, 3] },
    { name := "Row", payload := .branch "door", parent := some 1 },
    { name := "Row", payload := .branch "door", parent := some 1 }]
  root := 0

def bareCabin : Tree := .single "Cabin" (.branch "cabin")

theorem expand_rowsTwice : rows.expand = some (rowsDone, .ok { iterations := 1, expanded := 1, created := 2 }) := by
  have hlevels : levelNames (rows.node 0).payload = .ok [["Row", "Row"]] := by cbv
  have hone : (expandNode 0).on rows = (.ok 2, rowsDone) := by
    rw [expandNode, on_get_bind, hlevels, on_bind_ok (on_lift_ok _ _)]
    rfl
  exact expand_of_one (by decide) (by decide) hone (by decide)

/-- **A node that an overlay lists twice is copied twice**: the base is left with two nodes of one name, one of which is
found by it. -/
theorem merge_rows_twice : build {} .strict [(.string "Cabin", branchEntry "cabin")] = .ok ⟨bareCabin, []⟩ ∧
    build {} .overlay rowsEntries = .ok ⟨rows, []⟩ ∧
    rows.expand = some (rowsDone, .ok { iterations := 1, expanded := 1, created := 2 }) ∧
    bareCabin.SelfFound ∧ rowsDone.SelfFound ∧
    merge {} bareCabin rowsDone = (cabinRows, .ok { added := 1, skipped := 1 }) ∧
    ¬ ∀ x ∈ cabinRows.preorder, x ∉ bareCabin.preorder →
      (∃ y ∈ rowsDone.preorder, (rowsDone.node y).autogenerated = false ∧ cabinRows.find? (rowsDone.fqn y) = some x) ∨
      ∃ y ∈ rowsDone.preorder, (rowsDone.node y).autogenerated = true ∧ rowsDone.fqn y = cabinRows.fqn x ∧
        (cabinRows.node x).autogenerated = true :=
  ⟨rfl, rfl, expand_rowsTwice, by unfold SelfFound; decide, by unfold SelfFound; decide, rfl, by decide⟩

end Tree
end SignalCatalog
