import SignalCatalog.Proofs.Merge.Again
import SignalCatalog.Proofs.Merge.Contents
/-!
# Overlays in either order

Two overlays that declare no name in common make the same of a base in either order, but for one thing: a node that one
of them declares and the other has a placeholder for is copied in one order and refines the placeholder in the other.
-/
namespace SignalCatalog
namespace Tree

variable {r : Registry} {b o o₁ o₂ t t₁ t₁₂ : Tree} {x y : Nat} {stats s₁ s₁₂ : MergeStats}

/-- **An overlay tree**: built in overlay mode, and expanded or not. -/
inductive Prepared (r : Registry) : Tree → Prop
  | built {data : Mapping} {outcome : BuildOutcome} : (∀ e ∈ data, e.2.repeatsKey = false) →
      build r .overlay data = .ok outcome → Prepared r outcome.tree
  | expanded {data : Mapping} {outcome : BuildOutcome} {o : Tree} {stats : ExpansionStats} : (∀ e ∈ data,
    e.2.repeatsKey = false) →
      build r .overlay data = .ok outcome → (∀ x ∈ outcome.tree.preorder, (outcome.tree.node x).payload.LevelsDiffer) →
      outcome.tree.expand = some (o, .ok stats) → Prepared r o

namespace Prepared

variable (h : Prepared r o)
include h

theorem checked : ∀ x ∈ o.preorder, (o.node x).payload.Checked r := by
  cases h with
  | built hdata hbuild =>
    exact (wellFormed_of_build hbuild).1.content_of_carries (G := fun c => c.payload.Checked r)
      (carries_of_build hbuild (Payload.checked_branch _) fun e hmem pl hpl =>
        Payload.checked_of_read_value (hdata e hmem) hpl)
  | expanded hdata hbuild _ he => exact checked_of_expand hdata hbuild he

theorem plain : ∀ x ∈ o.preorder, (o.node x).content.Plain := by
  cases h with
  | built _ hbuild =>
    exact (wellFormed_of_build hbuild).1.content_of_carries (G := Content.Plain)
      (carries_of_build hbuild (fun _ => rfl) fun _ _ _ _ hauto => by cases hauto)
  | expanded _ hbuild _ he =>
    refine content_of_expand (G := Content.Plain) hbuild he (fun _ => rfl) (fun _ _ _ _ hauto => ?_)
      (fun _ hauto => ?_) fun hc hauto => ?_
    · cases hauto
    · cases hauto
    · rw [hc hauto]
      rfl

theorem anchored : o.Anchored := by
  cases h with
  | built _ hbuild => exact anchored_of_build hbuild
  | expanded _ hbuild hlevels he =>
    exact (reaches_of_expand he).anchored (regular_of_build hbuild hlevels) (anchored_of_build hbuild)

theorem plain_contents (hm : Aligned b o) : o.contents.Plain := by
  intro q d hd
  obtain ⟨x, hx, rfl⟩ :=
    (Forest.content?_eq_some hm.overlay.linked (hm.overlay_found.siblingsDiffer hm.overlay.toRooted)).1 hd
  exact h.plain x ((mem_preorder hm.overlay.linked).2 ⟨q, hx⟩)

end Prepared

theorem Aligned.of_merge (hm : Aligned b o₁) (ho : Aligned b o₂) (hmerge : merge r b o₁ = (t, .ok stats)) :
    Aligned t o₂ := by
  rcases merge_run r hm with ⟨t', stats', grafted, hon, hdone, -⟩ | ⟨t', e, hon, -⟩
  · rw [hon] at hmerge
    cases hmerge
    exact ⟨⟨hdone.rooted, ho.overlay, hdone.selfFound hm, ho.overlay_found⟩,
      ho.same_name.trans (((hdone.rootName_eq hm).trans hm.same_name).symm)⟩
  · rw [hon] at hmerge
    cases hmerge

/-- **Nodes of one name** in two overlays, which the base lacks. -/
def Meet (b o₁ o₂ : Tree) (x y : NodeId) : Prop :=
  x ∈ o₁.preorder ∧ y ∈ o₂.preorder ∧ o₁.fqn x = o₂.fqn y ∧ b.find? (o₁.fqn x) = none

section Two

variable (h₁ : Aligned b o₁) (h₂ : Aligned b o₂)
include h₁ h₂

theorem fqn_eq_iff {q s : List String} (hx : o₁.Route o₁.root q x) (hy : o₂.Route o₂.root s y) :
    o₁.fqn x = o₂.fqn y ↔ q = s := by
  have hname : o₁.rootName = o₂.rootName := h₁.same_name.trans h₂.same_name.symm
  constructor
  · intro heq
    have hsegments := h₁.overlay_found.segments_fqn h₁.overlay.toRooted hx
    rw [heq, h₂.overlay_found.segments_fqn h₂.overlay.toRooted hy] at hsegments
    exact (List.cons.inj hsegments).2.symm
  · rintro rfl
    rw [Forest.fqn_of_route h₁.overlay.linked h₁.overlay.root_top hx,
      Forest.fqn_of_route h₂.overlay.linked h₂.overlay.root_top hy]
    exact congrArg (fun name => QualifiedName.ofSegments (name :: q)) hname

theorem disjoint_contents (hdisjoint : ∀ x ∈ o₁.preorder, ∀ y ∈ o₂.preorder, o₁.fqn x = o₂.fqn y →
    (o₁.node x).autogenerated = true ∨ (o₂.node y).autogenerated = true) : o₁.contents.Disjoint o₂.contents := by
  intro q d hd e he
  obtain ⟨x, hx, rfl⟩ :=
    (Forest.content?_eq_some h₁.overlay.linked (h₁.overlay_found.siblingsDiffer h₁.overlay.toRooted)).1 hd
  obtain ⟨y, hy, rfl⟩ :=
    (Forest.content?_eq_some h₂.overlay.linked (h₂.overlay_found.siblingsDiffer h₂.overlay.toRooted)).1 he
  exact hdisjoint x ((mem_preorder h₁.overlay.linked).2 ⟨q, hx⟩) y ((mem_preorder h₂.overlay.linked).2 ⟨q, hy⟩)
    ((fqn_eq_iff h₁ h₂ hx hy).2 rfl)

theorem settledBeside_iff (hp₁ : Prepared r o₁) (hp₂ : Prepared r o₂) :
    b.contents.SettledBeside r o₁.contents o₂.contents ↔
    ∀ x y, Meet b o₁ o₂ x y → (o₁.node x).payload.Settled (o₁.node x).payload ∧
    (o₂.node y).payload.Settled (o₂.node y).payload := by
  have hd₁ := h₁.overlay_found.siblingsDiffer h₁.overlay.toRooted
  have hd₂ := h₂.overlay_found.siblingsDiffer h₂.overlay.toRooted
  have hfree : ∀ {q x}, o₁.Route o₁.root q x → (b.find? (o₁.fqn x) = none ↔ b.contents q = none) := by
    intro q x hx
    rw [h₁.find?_base hx, contents, Forest.content?, Option.map_eq_none_iff]
  have hiff : ∀ x ∈ o₁.preorder, ∀ y ∈ o₂.preorder,
      (Payload.refine r .placeholder (o₁.node x).payload = .ok (o₁.node x).payload ∧
        Payload.refine r .placeholder (o₂.node y).payload = .ok (o₂.node y).payload ↔
      (o₁.node x).payload.Settled (o₁.node x).payload ∧ (o₂.node y).payload.Settled (o₂.node y).payload) := by
    intro x hx y hy
    exact and_congr (Payload.refine_placeholder_iff (hp₁.checked x hx))
      (Payload.refine_placeholder_iff (hp₂.checked y hy))
  constructor
  · rintro hsettled x y ⟨hx, hy, hname, hnone⟩
    obtain ⟨q, hqx⟩ := (mem_preorder h₁.overlay.linked).1 hx
    obtain ⟨s, hsy⟩ := (mem_preorder h₂.overlay.linked).1 hy
    obtain rfl := (fqn_eq_iff h₁ h₂ hqx hsy).1 hname
    have hcx : o₁.contents q = some (o₁.node x).content := Forest.content?_of_route h₁.overlay.linked hd₁ hqx
    have hcy : o₂.contents q = some (o₂.node y).content := Forest.content?_of_route h₂.overlay.linked hd₂ hsy
    have hboth := hsettled q ((hfree hqx).1 hnone) _ hcx _ hcy
    rw [← hiff x hx y hy]
    exact hboth
  · intro hall q hnone d hd e he
    obtain ⟨x, hx, rfl⟩ := (Forest.content?_eq_some h₁.overlay.linked hd₁).1 hd
    obtain ⟨y, hy, rfl⟩ := (Forest.content?_eq_some h₂.overlay.linked hd₂).1 he
    have hxin := (mem_preorder h₁.overlay.linked).2 ⟨q, hx⟩
    have hyin := (mem_preorder h₂.overlay.linked).2 ⟨q, hy⟩
    exact (hiff x hxin y hyin).2 (hall x y ⟨hxin, hyin, (fqn_eq_iff h₁ h₂ hx hy).2 rfl, (hfree hx).2 hnone⟩)

end Two

/-- **Overlays that declare no name in common commute** just where the payloads at their common names, as far as the
base lacks these, are settled in themselves: no field is changed by being written and read once more.  Branches without
instances are. -/
theorem merge_commute (h₁ : Aligned b o₁) (h₂ : Aligned b o₂) (hp₁ : Prepared r o₁) (hp₂ : Prepared r o₂)
    (hdisjoint : ∀ x ∈ o₁.preorder, ∀ y ∈ o₂.preorder, o₁.fqn x = o₂.fqn y →
      (o₁.node x).autogenerated = true ∨ (o₂.node y).autogenerated = true)
    (hfirst : merge r b o₁ = (t₁, .ok s₁)) (hsecond : merge r t₁ o₂ = (t₁₂, .ok s₁₂)) :
    let swapped := ∃ t₂ s₂ t₂₁ s₂₁,
      merge r b o₂ = (t₂, .ok s₂) ∧ merge r t₂ o₁ = (t₂₁, .ok s₂₁) ∧ t₂₁.described = t₁₂.described
    (swapped ↔ ∀ x y, Meet b o₁ o₂ x y →
      (o₁.node x).payload.Settled (o₁.node x).payload ∧ (o₂.node y).payload.Settled (o₂.node y).payload) ∧
    ((∀ x y, Meet b o₁ o₂ x y → ((o₁.node x).payload.kind = .branch ∧ (o₁.node x).payload.instances = []) ∧
      (o₂.node y).payload.kind = .branch ∧ (o₂.node y).payload.instances = []) → swapped) := by
  intro swapped
  have hm₁ := hp₁.plain_contents h₁
  have hm₂ := hp₂.plain_contents h₂
  have hdisj := disjoint_contents h₁ h₂ hdisjoint
  have h₁₂ := h₁.of_merge h₂ hfirst
  have hcontents : t₁₂.contents = (b.contents.merged r o₁.contents).merged r o₂.contents := by
    rw [contents_of_merge h₁₂ hm₂ hp₂.anchored hsecond, contents_of_merge h₁ hm₁ hp₁.anchored hfirst]
  -- the contents in the other order, where it succeeds, and what they have to be
  have hother : ∀ {t₂ s₂ t₂₁ s₂₁}, merge r b o₂ = (t₂, .ok s₂) → merge r t₂ o₁ = (t₂₁, .ok s₂₁) →
      (t₂₁.described = t₁₂.described ↔ b.contents.SettledBeside r o₁.contents o₂.contents) := by
    intro t₂ s₂ t₂₁ s₂₁ hon₂ hon₂₁
    have h₂₁ := h₂.of_merge h₁ hon₂
    have hend := h₁₂.of_merge h₁₂ hsecond
    have hend' := h₂₁.of_merge h₂₁ hon₂₁
    have hname : t₂₁.rootName = t₁₂.rootName :=
      hend'.same_name.symm.trans (h₁.same_name.trans (h₂.same_name.symm.trans hend.same_name))
    rw [hend.base_found.described_eq_iff hend.base hend'.base_found hend'.base hname, hcontents,
      contents_of_merge h₂₁ hm₁ hp₁.anchored hon₂₁, contents_of_merge h₂ hm₂ hp₂.anchored hon₂, eq_comm]
    exact Layer.merged_comm_iff hm₁ hm₂ hdisj
  have hswapped : swapped ↔ b.contents.SettledBeside r o₁.contents o₂.contents := by
    constructor
    · rintro ⟨t₂, s₂, t₂₁, s₂₁, hon₂, hon₂₁, heq⟩
      exact (hother hon₂ hon₂₁).1 heq
    · intro hsettled
      have haccepts := (merge_ok_iff h₁).1 ⟨_, _, hfirst⟩
      have haccepts' := (merge_ok_iff h₁₂).1 ⟨_, _, hsecond⟩
      rw [contents_of_merge h₁ hm₁ hp₁.anchored hfirst] at haccepts'
      obtain ⟨haccept₂, haccept₂₁⟩ := Layer.accepts_swap hm₂ hdisj hsettled haccepts haccepts'
      obtain ⟨t₂, s₂, hon₂⟩ := (merge_ok_iff h₂).2 haccept₂
      rw [← contents_of_merge h₂ hm₂ hp₂.anchored hon₂] at haccept₂₁
      obtain ⟨t₂₁, s₂₁, hon₂₁⟩ := (merge_ok_iff (h₂.of_merge h₁ hon₂)).2 haccept₂₁
      exact ⟨t₂, s₂, t₂₁, s₂₁, hon₂, hon₂₁, (hother hon₂ hon₂₁).2 hsettled⟩
  rw [hswapped, settledBeside_iff h₁ h₂ hp₁ hp₂]
  refine ⟨Iff.rfl, fun hbranch x y hmeet => ?_⟩
  obtain ⟨⟨hkind₁, hinst₁⟩, hkind₂, hinst₂⟩ := hbranch x y hmeet
  exact ⟨Payload.settled_of_branch hkind₁ hinst₁, Payload.settled_of_branch hkind₂ hinst₂⟩

def hatch : Tree where
  nodes := #[
    { name := "Hatch", payload := .branch "hatch", parent := some 1 },
    { name := "Cabin", payload := .placeholder, autogenerated := true, children := [0] }]
  root := 1

def handle : Tree where
  nodes := #[
    { name := "Handle", payload := .branch "handle", parent := some 1 },
    { name := "Hatch", payload := .placeholder, autogenerated := true, parent := some 2, children := [0] },
    { name := "Cabin", payload := .placeholder, autogenerated := true, children := [1] }]
  root := 2

def hatched : Tree where
  nodes := #[
    { name := "Cabin", payload := .branch "cabin", children := [1, 3] },
    { name := "Door", payload := .branch "door", parent := some 0, children := [2] },
    { name := "Window", payload := .branch "window", parent := some 1 },
    { name := "Hatch", payload := .branch "hatch", parent := some 0 }]
  root := 0

def handled : Tree where
  nodes := #[
    { name := "Cabin", payload := .branch "cabin", children := [1, 3] },
    { name := "Door", payload := .branch "door", parent := some 0, children := [2] },
    { name := "Window", payload := .branch "window", parent := some 1 },
    { name := "Hatch", payload := .branch "hatch", parent := some 0, children := [4] },
    { name := "Handle", payload := .branch "handle", parent := some 3 }]
  root := 0

theorem merge_hatch : merge {} cabin hatch = (hatched, .ok { added := 1, skipped := 1 }) ∧
    merge {} hatched handle = (handled, .ok { added := 1, skipped := 2 }) ∧
    ∃ t₂ s₂ t₂₁ s₂₁, merge {} cabin handle = (t₂, .ok s₂) ∧ merge {} t₂ hatch = (t₂₁, .ok s₂₁) ∧
    t₂₁.described = handled.described := by
  have hfirst : merge {} cabin hatch = (hatched, .ok { added := 1, skipped := 1 }) := rfl
  have hsecond : merge {} hatched handle = (handled, .ok { added := 1, skipped := 2 }) := rfl
  have hbuild₁ : build {} .overlay [(.string "Cabin.Hatch", branchEntry "hatch")] = .ok ⟨hatch, []⟩ := rfl
  have hbuild₂ : build {} .overlay [(.string "Cabin.Hatch.Handle", branchEntry "handle")] = .ok ⟨handle, []⟩ := rfl
  have h₁ : Aligned cabin hatch := ⟨⟨(wellFormed_of_isOrdered (by decide)).toRooted, (wellFormed_of_build hbuild₁).1,
    by unfold SelfFound; decide, by unfold SelfFound; decide⟩, rfl⟩
  have h₂ : Aligned cabin handle := ⟨⟨(wellFormed_of_isOrdered (by decide)).toRooted, (wellFormed_of_build hbuild₂).1,
    by unfold SelfFound; decide, by unfold SelfFound; decide⟩, rfl⟩
  have hp₁ : Prepared {} hatch := .built (by decide) hbuild₁
  have hp₂ : Prepared {} handle := .built (by decide) hbuild₂
  refine ⟨hfirst, hsecond, (merge_commute h₁ h₂ hp₁ hp₂ (by decide) hfirst hsecond).2 fun x y hmeet => ?_⟩
  obtain ⟨hx, hy, -⟩ := hmeet
  have hx' : ∀ x ∈ hatch.preorder, (hatch.node x).payload.kind = .branch ∧ (hatch.node x).payload.instances = [] := by
    decide
  have hy' : ∀ y ∈ handle.preorder, (handle.node y).payload.kind = .branch ∧
    (handle.node y).payload.instances = [] := by decide
  exact ⟨hx' x hx, hy' y hy⟩

def seating : Registry := { datatypes := .ofStructs ["Types.Seat"] (Eq.refl true) }

def seatEntries : Mapping :=
  [(.string "Cabin.Seat", .mapping [(.string "type", .string "attribute"), (.string "description", .string "seat"),
    (.string "datatype", .string "Types.Seat"), (.string "default",
      .mapping [(.string "heat", .tagged ⟨"!!low"⟩ (.string "on"))])])]

/-- What a seat is read as, and what when that is read again. -/
def seatPayload (tag : String) : Payload where
  common := { description := "seat" }
  body := .attr
    { datatype := "Types.Seat", default := some (.mapping [(.string "heat", .tagged ⟨tag⟩ (.string "on"))]) }

def seat : Tree where
  nodes := #[
    { name := "Seat", payload := seatPayload "!low", parent := some 1 },
    { name := "Cabin", payload := .placeholder, autogenerated := true, children := [0] }]
  root := 1

def heater : Tree where
  nodes := #[
    { name := "Heater", payload := .branch "heater", parent := some 1 },
    { name := "Seat", payload := .placeholder, autogenerated := true, parent := some 2, children := [0] },
    { name := "Cabin", payload := .placeholder, autogenerated := true, children := [1] }]
  root := 2

def emptyCabin : Tree := .single "Cabin" (.branch "cabin")

def seated (n : Node) : Tree where
  nodes := #[{ name := "Cabin", payload := .branch "cabin", children := [1] },
    { n with name := "Seat", parent := some 0 }]
  root := 0

def heated (n : Node) : Tree where
  nodes := #[
    { name := "Cabin", payload := .branch "cabin", children := [1] },
    { n with name := "Seat", parent := some 0, children := [2] },
    { name := "Heater", payload := .branch "heater", parent := some 1 }]
  root := 0

/-- **A tag tells the order**: a node put on a placeholder is read once more than one that is copied. -/
theorem merge_orders_differ : build seating .overlay seatEntries = .ok ⟨seat, []⟩ ∧
    build seating .overlay [(.string "Cabin.Seat.Heater", branchEntry "heater")] = .ok ⟨heater, []⟩ ∧
    Aligned emptyCabin seat ∧ Aligned emptyCabin heater ∧
    (∀ x ∈ seat.preorder, ∀ y ∈ heater.preorder, seat.fqn x = heater.fqn y →
      (seat.node x).autogenerated = true ∨ (heater.node y).autogenerated = true) ∧
    merge seating emptyCabin seat = (seated { name := "Seat", payload := seatPayload "!low" },
      .ok { added := 1, skipped := 1 }) ∧
    merge seating (seated { name := "Seat", payload := seatPayload "!low" }) heater =
      (heated { name := "Seat", payload := seatPayload "!low" }, .ok { added := 1, skipped := 2 }) ∧
    merge seating emptyCabin heater = (heated (.placeholder "Seat"), .ok { added := 1, skipped := 2 }) ∧
    merge seating (heated (.placeholder "Seat")) seat =
      (heated { name := "Seat", payload := seatPayload "low" }, .ok { overwritten := 1, skipped := 1 }) ∧
    (heated { name := "Seat", payload := seatPayload "low" }).described ≠
      (heated { name := "Seat", payload := seatPayload "!low" }).described := by
  have hbuild₁ : build seating .overlay seatEntries = .ok ⟨seat, []⟩ := rfl
  have hbuild₂ : build seating .overlay [(.string "Cabin.Seat.Heater", branchEntry "heater")] = .ok ⟨heater, []⟩ := rfl
  have hparent : (ensureParent (heater.fqn 0) (QualifiedName.parent? (heater.fqn 0))).on emptyCabin =
      (.ok 1, seated (.placeholder "Seat")) := rfl
  have hgraft : merge seating emptyCabin heater = (heated (.placeholder "Seat"), .ok { added := 1, skipped := 2 }) := by
    rw [merge_eq, show heater.preorder = [2, 1, 0] by decide, mergeNodes_auto (by decide) rfl,
      mergeNodes_auto (by decide) rfl, mergeNodes_add (by decide) rfl (by decide) hparent]
    rfl
  refine ⟨hbuild₁, hbuild₂, ?_, ?_, by decide, rfl, rfl, hgraft, rfl, fun heq => ?_⟩
  · exact ⟨⟨(wellFormed_of_isOrdered (by decide)).toRooted, (wellFormed_of_build hbuild₁).1,
      by unfold SelfFound; decide, by unfold SelfFound; decide⟩, rfl⟩
  · exact ⟨⟨(wellFormed_of_isOrdered (by decide)).toRooted, (wellFormed_of_build hbuild₂).1,
      by unfold SelfFound; decide, by unfold SelfFound; decide⟩, rfl⟩
  · have hmem : ("Cabin.Seat", Content.mk (seatPayload "low") false) ∈
        (heated { name := "Seat", payload := seatPayload "low" }).described :=
      ⟨1, by decide, rfl⟩
    rw [heq] at hmem
    obtain ⟨x, hx, hx'⟩ := hmem
    obtain ⟨hname, hcontent⟩ := Prod.mk.inj hx'
    have hone : ∀ x ∈ (heated { name := "Seat", payload := seatPayload "!low" }).preorder,
        "Cabin.Seat" = (heated { name := "Seat", payload := seatPayload "!low" }).fqn x → x = 1 := by decide
    obtain rfl := hone x hx hname
    have hdefault := congrArg (fun c : Content => c.payload.datatypeFields?.bind (·.default)) hcontent
    simp [seatPayload, Payload.datatypeFields?, heated, Node.content, Forest.node] at hdefault

end Tree
end SignalCatalog
