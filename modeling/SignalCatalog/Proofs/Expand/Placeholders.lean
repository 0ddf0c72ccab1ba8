import Mathlib
import SignalCatalog.Proofs.Expand.Addressable
import SignalCatalog.Proofs.Merge.Refined
/-!
# Placeholders and declared nodes

A placeholder carries the payload that is made for it.  Expansions hand payloads on, and make a placeholder a declared
node when they put an instance or a copy on it; what it carries then was declared in an entry, unless the copy was of a
placeholder too.
-/
namespace SignalCatalog

/-- **A payload that an entry declares**, with or without its instances. -/
def DeclaredIn (r : Registry) (data : Mapping) (p : Payload) : Prop :=
  ∃ e ∈ data, ∃ pl, Payload.read r e.2 = .ok pl ∧ (p = pl ∨ p = pl.clearInstances)

theorem DeclaredIn.clearInstances {r : Registry} {data : Mapping} {p : Payload} (h : DeclaredIn r data p) :
    DeclaredIn r data p.clearInstances := by
  obtain ⟨e, he, pl, hread, hp⟩ := h
  refine ⟨e, he, pl, hread, .inr ?_⟩
  rcases hp with rfl | rfl
  · rfl
  · obtain ⟨common, body⟩ := pl
    cases body <;> rfl

/-- **Placeholders carry the payload made for them**, and declared nodes one of a kind. -/
def Content.Faithful (D : Payload → Prop) (c : Content) : Prop :=
  (c.autogenerated = true → c.payload = .placeholder) ∧ (c.autogenerated = false → D c.payload)

theorem Content.Faithful.declared {D : Payload → Prop} {p : Payload} (h : D p) : Content.Faithful D ⟨p, false⟩ :=
  ⟨by simp, fun _ => h⟩

theorem Content.Faithful.payload {D : Payload → Prop} {c : Content} (h : c.Faithful D) (hD : D .placeholder) :
    D c.payload := by
  cases hauto : c.autogenerated with
  | true => exact h.1 hauto ▸ hD
  | false => exact h.2 hauto

theorem Content.Faithful.clearInstances {D : Payload → Prop} {c : Content} (h : c.Faithful D)
    (hclear : ∀ {p}, D p → D p.clearInstances) :
    Content.Faithful D ⟨c.payload.clearInstances, c.autogenerated⟩ := by
  refine ⟨fun hauto => ?_, fun hauto => hclear (h.2 hauto)⟩
  show c.payload.clearInstances = .placeholder
  rw [h.1 hauto]
  rfl

namespace Tree

variable {t t' u : Tree} {n x k : Nat} {levels : List (List String)} {D : Payload → Prop} {ids : List NodeId}

/-- **No placeholder of a template comes on another placeholder** when the branch is expanded. -/
def NoneMeet (t : Tree) (n : NodeId) (levels : List (List String)) : Prop :=
  ∀ leaf p c d, Level.IsInnermost levels leaf → t.templateContents n levels p = some c → c.autogenerated = true →
    t.restContents n levels (leaf ++ p) = some d → d.autogenerated = false

theorem noneMeet_of_template (ht : t.WellFormed) (hs : t.SiblingsDiffer) (hn : t.Below t.root n)
    (hdeclared : ∀ c ∈ t.template n levels, ∀ x ∈ t.subtree c, (t.node x).autogenerated = false) :
    t.NoneMeet n levels := by
  intro leaf p c d _ hp hauto
  obtain ⟨x, hx, rfl⟩ :=
    (Forest.content?_eq_some ht.linked (hs.mono hn)).1 (content?_of_templateContents ht.linked (hs.mono hn) hp)
  have hcs : ∀ c ∈ t.template n levels, t.parent? c = some n := fun _ hc => parent?_of_mem_template ht.linked hc
  have hin := (Forest.contents?_eq_none_iff ht.linked (hs.mono hn) hcs hx).not.1 (by rw [← templateContents, hp]; simp)
  simp only [not_forall, not_not] at hin
  obtain ⟨c, hc, hcx⟩ := hin
  have hdecl := hdeclared c hc x (ht.linked.mem_subtree.2 hcx)
  rw [show (t.node x).autogenerated = true from hauto] at hdecl
  cases hdecl

/-- **An expansion in which no placeholders meet** makes declared nodes of placeholders with declared payloads only. -/
theorem Expanded.faithful (h : t.Expanded n levels t') (ht : t.WellFormed) (hs : t.SiblingsDiffer)
    (hn : t.Below t.root n) (hclear : ∀ {p}, D p → D p.clearInstances) (hauto : (t.node n).autogenerated = false)
    (hmeet : t.NoneMeet n levels) (hall : ∀ x ∈ t.preorder, (t.node x).content.Faithful D) :
    ∀ x ∈ t'.preorder, (t'.node x).content.Faithful D := by
  have hself : D (t.node n).payload := (hall n ((mem_preorder ht.linked).2 hn)).2 hauto
  have hold : ∀ {q : List String} {c : Content}, t.content? n q = some c → c.Faithful D := by
    intro q c hc
    obtain ⟨y, hy, -, rfl⟩ := exists_of_content? ht hs hn hc
    exact hall y hy
  intro x hx
  rcases h.node_cases ht hn hx with ⟨hin, -, hnode⟩ | ⟨rfl, hcontent⟩ | ⟨q, -, -, hsource⟩
  · rw [hnode]
    exact hall x hin
  · rw [hcontent, hauto]
    exact ⟨by simp, fun _ => hclear hself⟩
  · generalize (t'.node x).content = c at hsource
    cases hsource with
    | kept hrest => exact hold (content?_of_restContents hrest)
    | instanced => exact ⟨by simp, fun _ => hclear hself⟩
    | copied hleaf hpq hp => exact hold (content?_of_templateContents ht.linked (hs.mono hn) hp)
    | merged hleaf hpq hp hrest hplaceholder =>
      rename_i leaf p c d
      refine ⟨by simp, fun _ => ?_⟩
      refine (hold (content?_of_templateContents ht.linked (hs.mono hn) hp)).2 ?_
      by_contra hc
      rw [hmeet leaf p c d hleaf hp (by simpa using hc) (hpq ▸ hrest)] at hplaceholder
      cases hplaceholder

theorem Reaches.faithful (h : t.Reaches ids u) (ht : t.Regular) (hclear : ∀ {p}, D p → D p.clearInstances)
    (hmeet : ∀ id ids u levels, t.Reaches (id :: ids) u → u.isAttached id = true →
      levelNames (u.node id).payload = .ok levels →
      u.NoneMeet id levels)
    (hall : ∀ x ∈ t.preorder, (t.node x).content.Faithful D) : ∀ x ∈ u.preorder, (u.node x).content.Faithful D :=
  h.preserves (P := fun u => ∀ x ∈ u.preorder, (u.node x).content.Faithful D) (fun h hid hon ih => by
    have hstate := h.regularState ht
    obtain ⟨hbelow, hinst, levels, hlevels, -, hexp⟩ := hstate.exists_expanded hid hon
    have hauto := hstate.regular.declared hbelow hinst
    exact hexp.faithful hstate.regular.toWellFormed hstate.regular.siblingsDiffer hbelow hclear hauto
      (hmeet _ _ _ levels h hid hlevels) ih) hall

end Tree

/-- **What the nodes of an expanded tree carry.**  A placeholder carries the payload made for it, a declared node one
that an entry declares or the one made for placeholders.  Where no level gives a name twice and no placeholders meet on
the way, a declared node always carries one that an entry declares, and then a merge of the tree refines nodes of a base
by such payloads only. -/
theorem expand_build_faithful {r : Registry} {mode : BuildMode} {data : Mapping} {o : BuildOutcome} {t' : Tree}
    {stats : ExpansionStats} (h : build r mode data = .ok o) (he : o.tree.expand = some (t', .ok stats)) :
    (∀ x ∈ t'.preorder, (t'.node x).content.Faithful fun p => DeclaredIn r data p ∨ p = .placeholder) ∧
    ((∀ x ∈ o.tree.preorder, (o.tree.node x).payload.LevelsDiffer) →
      (∀ id ids u levels, o.tree.Reaches (id :: ids) u → u.isAttached id = true →
        Tree.levelNames (u.node id).payload = .ok levels →
        u.NoneMeet id levels) →
      (∀ x ∈ t'.preorder, (t'.node x).content.Faithful (DeclaredIn r data)) ∧
      ∀ (r' : Registry) (base : Tree), Tree.RefinedFrom r' (DeclaredIn r data) base (Tree.merge r' base t').1) := by
  have hread : ∀ e ∈ data, ∀ pl, Payload.read r e.2 = .ok pl → DeclaredIn r data pl :=
    fun e he pl hpl => ⟨e, he, pl, hpl, .inl rfl⟩
  constructor
  · have hclear : ∀ {p}, (DeclaredIn r data p ∨ p = .placeholder) →
        DeclaredIn r data p.clearInstances ∨ p.clearInstances = .placeholder := by
      rintro p (hp | rfl)
      · exact .inl hp.clearInstances
      · exact .inr rfl
    exact content_of_expand (G := Content.Faithful fun p => DeclaredIn r data p ∨ p = .placeholder) h he
      ⟨fun _ => rfl, by simp⟩
      (fun e hmem pl hpl => .declared (.inl (hread e hmem pl hpl))) (fun hc => .declared (hc.payload (.inr rfl)))
      fun hc => hc.clearInstances hclear
  · intro hlevels hmeet
    have hbuilt := carries_of_build (G := Content.Faithful (DeclaredIn r data)) h ⟨fun _ => rfl, by simp⟩
      fun e hmem pl hpl => .declared (hread e hmem pl hpl)
    have hall :=
      (Tree.reaches_of_expand he).faithful (Tree.regular_of_build h hlevels) (fun hp => hp.clearInstances) hmeet
      ((wellFormed_of_build h).1.content_of_carries hbuilt)
    exact ⟨hall, fun r' base => Tree.merge_refined fun x hx hauto => (hall x hx).2 hauto⟩

namespace Tree

def latchEntries : Mapping :=
  [(.string "Cabin", instancesEntry "cabin" []),
    (.string "Cabin.Door", instancesEntry "door" [.string "Left", .string "Right"]),
    (.string "Cabin.Door.Window", instancesEntry "window" []),
    (.string "Cabin.Door.Left.Latch", instancesEntry "latch" [])]

def latch : Tree where
  nodes := #[
    { name := "Cabin", payload := .branch "cabin", children := [1] },
    { name := "Door", payload := { common := { description := "door" }, body := .branch [⟨["Left", "Right"]⟩] },
      parent := some 0, children := [2, 4] },
    { name := "Window", payload := .branch "window", parent := some 1 },
    { name := "Latch", payload := .branch "latch", parent := some 4 },
    { name := "Left", payload := .placeholder, autogenerated := true, parent := some 1, children := [3] }]
  root := 0

def latchDone : Tree where
  nodes := #[
    { name := "Cabin", payload := .branch "cabin", children := [1] },
    { name := "Door", payload := .branch "door", parent := some 0, children := [4, 5] },
    { name := "Window", payload := .branch "window" },
    { name := "Latch", payload := .branch "latch", parent := some 4 },
    { name := "Left", payload := .branch "door", parent := some 1, children := [6, 3] },
    { name := "Right", payload := .branch "door", parent := some 1, children := [7] },
    { name := "Window", payload := .branch "window", parent := some 4 },
    { name := "Window", payload := .branch "window", parent := some 5 }]
  root := 0

theorem levelNames_latch : levelNames (latch.node 1).payload = .ok [["Left", "Right"]] := by cbv

theorem expandNode_latch : (expandNode 1).on latch = (.ok 3, latchDone) := by
  rw [expandNode, on_get_bind, levelNames_latch, on_bind_ok (on_lift_ok _ _)]
  rfl

theorem expand_latch : latch.expand = some (latchDone, .ok { iterations := 1, expanded := 1, created := 3 }) :=
  expand_of_one (by decide) (by decide) expandNode_latch (by decide)

def frameEntries : Mapping :=
  [(.string "Cabin", instancesEntry "cabin" []), (.string "Cabin.Door", instancesEntry "door" [.string "Left"]),
    (.string "Cabin.Door.Frame.Hinge", instancesEntry "hinge" []),
    (.string "Cabin.Door.Left.Frame.Lock", instancesEntry "lock" [])]

def frame : Tree where
  nodes := #[
    { name := "Cabin", payload := .branch "cabin", children := [1] },
    { name := "Door", payload := { common := { description := "door" }, body := .branch [⟨["Left"]⟩] },
      parent := some 0, children := [4, 5] },
    { name := "Hinge", payload := .branch "hinge", parent := some 4 },
    { name := "Lock", payload := .branch "lock", parent := some 6 },
    { name := "Frame", payload := .placeholder, autogenerated := true, parent := some 1, children := [2] },
    { name := "Left", payload := .placeholder, autogenerated := true, parent := some 1, children := [6] },
    { name := "Frame", payload := .placeholder, autogenerated := true, parent := some 5, children := [3] }]
  root := 0

def frameDone : Tree where
  nodes := #[
    { name := "Cabin", payload := .branch "cabin", children := [1] },
    { name := "Door", payload := .branch "door", parent := some 0, children := [5] },
    { name := "Hinge", payload := .branch "hinge", parent := some 4 },
    { name := "Lock", payload := .branch "lock", parent := some 6 },
    { name := "Frame", payload := .placeholder, autogenerated := true, children := [2] },
    { name := "Left", payload := .branch "door", parent := some 1, children := [6] },
    { name := "Frame", payload := .placeholder, parent := some 5, children := [7, 3] },
    { name := "Hinge", payload := .branch "hinge", parent := some 6 }]
  root := 0

theorem expand_frame : frame.expand = some (frameDone, .ok { iterations := 1, expanded := 1, created := 1 }) := by
  have hlevels : levelNames (frame.node 1).payload = .ok [["Left"]] := by cbv
  have hone : (expandNode 1).on frame = (.ok 1, frameDone) := by
    rw [expandNode, on_get_bind, hlevels, on_bind_ok (on_lift_ok _ _)]
    rfl
  exact expand_of_one (by decide) (by decide) hone (by decide)

end Tree

theorem expand_latch_faithful : ∃ o t' stats, build {} .connect Tree.latchEntries = .ok o ∧
    o.tree.expand = some (t', .ok stats) ∧
    ∀ x ∈ t'.preorder, (t'.node x).content.Faithful (DeclaredIn {} Tree.latchEntries) := by
  have hbuild : build {} .connect Tree.latchEntries = .ok ⟨Tree.latch, []⟩ := by cbv
  have hlevels : ∀ x ∈ Tree.latch.preorder, (Tree.latch.node x).payload.LevelsDiffer :=
    Tree.eachLevel_of_one (by decide) Tree.levelNames_latch (by decide)
  refine ⟨_, _, _, hbuild, Tree.expand_latch, ((expand_build_faithful hbuild Tree.expand_latch).2 hlevels ?_).1⟩
  intro id ids u levels hreach hid hnames
  have hstates := hreach.of_one (by decide) (by decide) Tree.expandNode_latch (by decide)
  rcases hstates with ⟨hids, -⟩ | ⟨hids, rfl⟩ | ⟨hids, -⟩
  · cases hids
  · cases hids
    rw [Tree.levelNames_latch, Except.ok.injEq] at hnames
    subst hnames
    obtain ⟨ht, hs⟩ := wellFormed_of_build hbuild
    exact Tree.noneMeet_of_template ht hs ((Tree.mem_preorder ht.linked).1 (by decide)) (by decide)
  · cases hids

/-- **Placeholders that meet become a declared node** with a payload that no entry declares. -/
theorem expand_frame_synthesized : ∃ o t' stats, build {} .connect Tree.frameEntries = .ok o ∧
    o.tree.expand = some (t', .ok stats) ∧
    6 ∈ t'.preorder ∧ t'.fqn 6 = "Cabin.Door.Left.Frame" ∧ (t'.node 6).autogenerated = false ∧
    (t'.node 6).payload = .placeholder ∧
      ¬ DeclaredIn {} Tree.frameEntries .placeholder := by
  refine ⟨⟨Tree.frame, []⟩, Tree.frameDone, _, by cbv, Tree.expand_frame, by decide, by decide, rfl, rfl, ?_⟩
  rintro ⟨e, he, pl, hread, hp⟩
  have hsame : pl.common = Payload.placeholder.common := by
    rcases hp with rfl | hp
    · rfl
    · rw [hp, Payload.common_clearInstances]
  have hall : (Tree.frameEntries.map fun e => (Payload.read {} e.2).map (·.common.description)) =
      [.ok "cabin", .ok "door", .ok "hinge", .ok "lock"] := by cbv
  have hmem := List.mem_map_of_mem (f := fun e => (Payload.read {} e.2).map (·.common.description)) he
  rw [hall, hread, Except.map, hsame] at hmem
  simp [Payload.placeholder, Payload.branch] at hmem

end SignalCatalog
