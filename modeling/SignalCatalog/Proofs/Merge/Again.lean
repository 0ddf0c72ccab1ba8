import SignalCatalog.Proofs.Build.Connect
import SignalCatalog.Proofs.Merge.Exact
import SignalCatalog.Proofs.Payload.Again
/-!
# Merging once more

After a merge the base has a node for every declared node of the overlay, so merging the same overlay again makes no
node and moves none.  It changes nothing at all just where the payloads are settled.
-/
namespace SignalCatalog

namespace Forest

variable {f g : Forest} {a : Nat} {q : List String}

theorem descend?_congr (hname : ∀ x, (g.node x).name = (f.node x).name) (hchildren : ∀ x, g.children x = f.children x) :
    g.descend? a q = f.descend? a q := by
  induction q generalizing a with
  | nil => rfl
  | cons name q ih =>
    rw [descend?, descend?, childNamed?, childNamed?, hchildren]
    simp only [hname]
    exact congrArg _ (funext fun c => ih)

end Forest

namespace Tree

variable {r : Registry} {b o t u u' : Tree} {x : Nat} {p : Payload} {ids : List NodeId} {stats : MergeStats}

/-- **The second tree is the first with other payloads.** -/
structure Repainted (u u' : Tree) : Prop where
  root : u'.root = u.root
  count : u'.count = u.count
  node : ∀ x, ∃ p, u'.node x = { u.node x with payload := p }

namespace Repainted

theorem refl (u : Tree) : Repainted u u := ⟨rfl, rfl, fun x => ⟨(u.node x).payload, rfl⟩⟩

theorem trans {v : Tree} (h : Repainted u u') (h' : Repainted u' v) : Repainted u v := by
  refine ⟨h'.root.trans h.root, h'.count.trans h.count, fun x => ?_⟩
  obtain ⟨p, hp⟩ := h.node x
  obtain ⟨p', hp'⟩ := h'.node x
  exact ⟨p', by rw [hp', hp]⟩

theorem autogenerated (h : Repainted u u') (x : Nat) : (u'.node x).autogenerated = (u.node x).autogenerated := by
  obtain ⟨p, hp⟩ := h.node x
  rw [hp]

theorem find?_eq (h : Repainted u u') (fqn : String) : u'.find? fqn = u.find? fqn := by
  have hname : ∀ x, (u'.node x).name = (u.node x).name := by
    intro x
    obtain ⟨p, hp⟩ := h.node x
    rw [hp]
  have hchildren : ∀ x, u'.children x = u.children x := by
    intro x
    obtain ⟨p, hp⟩ := h.node x
    rw [Forest.children, hp, Forest.children]
  rw [find?, find?, rootName, rootName, h.root, hname]
  simp only [Forest.descend?_congr hname hchildren]

end Repainted

theorem repainted_declareAt (hauto : (u.node x).autogenerated = false) (p : Payload) :
    Repainted u (u.declareAt x p) := by
  refine ⟨rfl, Forest.count_modify _, fun y => ?_⟩
  rw [declareAt, withForest, Forest.node_modify]
  split
  · rename_i heq
    obtain ⟨rfl, -⟩ := heq
    exact ⟨p, by rw [Node.declare, ← hauto]⟩
  · exact ⟨_, rfl⟩

theorem declareAt_self (hauto : (u.node x).autogenerated = false) : u.declareAt x (u.node x).payload = u := by
  have hself : (u.node x).declare (u.node x).payload = u.node x := by rw [Node.declare, ← hauto]
  rw [declareAt, Forest.modify_eq_self hself]
  rfl

/-- **A tree that has all declared nodes of an overlay**, and has them declared. -/
def Covers (u o : Tree) (ids : List NodeId) : Prop :=
  ∀ y ∈ ids, (o.node y).autogenerated = false → ∃ x, u.find? (o.fqn y) = some x ∧ (u.node x).autogenerated = false

/-- **A merge into a tree that has all nodes** only puts other payloads on them. -/
theorem mergeNodes_covers (h : Covers u o ids) {result : Except OverlayError MergeStats}
    (hon : (mergeNodes r o stats [] ids).on u = (result, u')) :
    Repainted u u' ∧ ∀ stats', result = .ok stats' → stats'.added = stats.added := by
  induction ids generalizing u stats with
  | nil =>
    cases hon
    exact ⟨.refl _, fun stats' hs => congrArg MergeStats.added (Except.ok.inj hs).symm⟩
  | cons y ids ih =>
    obtain ⟨hy, hrest⟩ := List.forall_mem_cons.1 h
    cases hauto : (o.node y).autogenerated with
    | true =>
      rw [mergeNodes_auto (by simp) hauto] at hon
      obtain ⟨hpaint, hadded⟩ := ih hrest hon
      exact ⟨hpaint, hadded⟩
    | false =>
      obtain ⟨x, hfind, hx⟩ := hy hauto
      rw [mergeNodes_overwrite (by simp) hauto hfind] at hon
      split at hon
      · rename_i merged _
        have hpaint := repainted_declareAt hx merged
        obtain ⟨hnext, hadded⟩ := ih (fun z hz hz' => by
          obtain ⟨w, hw, hw'⟩ := hrest z hz hz'
          exact ⟨w, (hpaint.find?_eq _).trans hw, (hpaint.autogenerated w).trans hw'⟩) hon
        exact ⟨hpaint.trans hnext, hadded⟩
      · cases hon
        exact ⟨.refl _, fun stats' hs => by cases hs⟩

theorem mergeNodes_settled (h : ∀ y ∈ ids, (o.node y).autogenerated = false → ∃ x, u.find? (o.fqn y) = some x ∧
      (u.node x).autogenerated = false ∧ Payload.refine r (u.node x).payload
      (o.node y).payload = .ok (u.node x).payload) :
    ∃ stats', (mergeNodes r o stats [] ids).on u = (.ok stats', u) := by
  induction ids generalizing stats with
  | nil => exact ⟨stats, rfl⟩
  | cons y ids ih =>
    obtain ⟨hy, hrest⟩ := List.forall_mem_cons.1 h
    cases hauto : (o.node y).autogenerated with
    | true =>
      rw [mergeNodes_auto (by simp) hauto]
      exact ih hrest
    | false =>
      obtain ⟨x, hfind, hx, hrefine⟩ := hy hauto
      rw [mergeNodes_overwrite (by simp) hauto hfind, hrefine]
      dsimp only
      rw [declareAt_self hx]
      exact ih hrest

/-- What a declared node of the overlay became: its payload where the base had no such node, and else a refined one. -/
theorem Merged.find?_declared {y : Nat} (h : Merged r b o stats t) (hy : y ∈ o.preorder)
    (hown : (o.node y).autogenerated = false) :
    ∃ x, t.find? (o.fqn y) = some x ∧ (t.node x).autogenerated = false ∧
      (b.find? (o.fqn y) = none ∧ (t.node x).payload = (o.node y).payload ∨
        ∃ z, b.find? (o.fqn y) = some z ∧
          Payload.refine r (b.node z).payload (o.node y).payload = .ok (t.node x).payload) := by
  cases hfind : b.find? (o.fqn y) with
  | none =>
    obtain ⟨x, hx, hcontent⟩ := h.copied y hy hown hfind
    exact ⟨x, hx, congrArg Content.autogenerated hcontent, .inl ⟨rfl, congrArg Content.payload hcontent⟩⟩
  | some z =>
    obtain ⟨hx, p, hp, hcontent⟩ := h.refined y hy hown z hfind
    have hpayload : (t.node z).payload = p := congrArg Content.payload hcontent
    exact ⟨z, hx, congrArg Content.autogenerated hcontent, .inr ⟨z, rfl, hpayload ▸ hp⟩⟩

/-- **Merging once more** puts at most other payloads on the nodes, and adds none.  It leaves the base as it is just
where every payload that the overlay declares is settled: where the overlay writes a field, or the refined payload has
one that the overlay leaves out, that field is not changed by being written and read. -/
theorem merge_again (h : Mergeable b o) (hb : ∀ x ∈ b.preorder, (b.node x).payload.Proper)
    (ho : ∀ y ∈ o.preorder, (o.node y).autogenerated = false → (o.node y).payload.Checked r)
    (hmerge : merge r b o = (t, .ok stats)) :
    (∀ t' result, merge r t o = (t', result) → Repainted t t' ∧ ∀ stats', result = .ok stats' → stats'.added = 0) ∧
    ((∃ stats', merge r t o = (t, .ok stats')) ↔ ∀ y ∈ o.preorder, (o.node y).autogenerated = false →
      ∀ x, t.find? (o.fqn y) = some x → (t.node x).payload.Settled (o.node y).payload) ∧
    ∀ p q m : Payload, p.Proper → q.Proper → Payload.refine r p q = .ok m → (Payload.refine r m q = .ok m ↔
      ∀ key : Payload.Key, key.IsOf q.kind → q.get key = key.absent → (m.get key).rewritten = m.get key) := by
  have hmerged := merged_of_merge h hmerge
  have hsettled : ∀ y ∈ o.preorder, (o.node y).autogenerated = false → ∀ x, t.find? (o.fqn y) = some x →
      (Payload.refine r (t.node x).payload (o.node y).payload = .ok (t.node x).payload ↔
        (t.node x).payload.Settled (o.node y).payload) := by
    intro y hy hown x hx
    have hchecked := ho y hy hown
    obtain ⟨x', hx', -, ⟨-, hpayload⟩ | ⟨z, hz, hrefine⟩⟩ := hmerged.find?_declared hy hown
    all_goals obtain rfl : x = x' := Option.some.inj (hx.symm.trans hx')
    · rw [hpayload]
      exact Payload.refine_self_iff hchecked
    · exact (Payload.refine_again_iff (hb z (mem_preorder_of_find? h.base.linked hz)) hchecked.toProper hrefine).1
  refine ⟨fun t' result hon => ?_, ⟨fun ⟨stats', hon⟩ y hy hown x hx => (hsettled y hy hown x hx).1 ?_, fun hall => ?_⟩,
    fun p q m hp hq hm => (Payload.refine_again_iff hp hq hm).1.trans (Payload.refine_again_iff hp hq hm).2⟩
  · refine mergeNodes_covers (fun y hy hown => ?_) (show (mergeNodes r o {} [] o.preorder).on t = (result, t') from ?_)
    · obtain ⟨x, hx, hauto, -⟩ := hmerged.find?_declared hy hown
      exact ⟨x, hx, hauto⟩
    · rw [merge_eq] at hon
      exact Prod.ext (congrArg Prod.snd hon) (congrArg Prod.fst hon)
  · have hagain := merged_of_merge ⟨hmerged.rooted, h.overlay, hmerged.selfFound, h.overlay_found⟩ hon
    obtain ⟨-, p, hp, hcontent⟩ := hagain.refined y hy hown x hx
    rw [hp, show (t.node x).payload = p from congrArg Content.payload hcontent]
  · obtain ⟨stats', hon⟩ : ∃ stats', (mergeNodes r o {} [] o.preorder).on t = (.ok stats', t) :=
        mergeNodes_settled fun y hy hown => by
      obtain ⟨x, hx, hauto, -⟩ := hmerged.find?_declared hy hown
      exact ⟨x, hx, hauto, (hsettled y hy hown x hx).2 (hall y hy hown x hx)⟩
    exact ⟨stats', by rw [merge_eq, hon]⟩

def tint : Tree where
  nodes := #[
    { name := "Cabin", payload := .placeholder, autogenerated := true, children := [1] },
    { name := "Door", payload := .placeholder, autogenerated := true, parent := some 0, children := [2] },
    { name := "Window", payload := .branch "tinted window", parent := some 1 }]
  root := 0

theorem merge_tint : ∃ t stats, merge {} cabin tint = (t, .ok stats) ∧ ∃ stats', merge {} t tint = (t, .ok stats') := by
  have hmergeable : Mergeable cabin tint :=
    ⟨(wellFormed_of_isOrdered (by decide)).toRooted, wellFormed_of_isOrdered (by decide), by unfold SelfFound; decide,
      by unfold SelfFound; decide⟩
  have hmerge : merge {} cabin tint = (cabin.declareAt 2 (.branch "tinted window"),
    .ok { overwritten := 1, skipped := 2 }) := rfl
  refine ⟨_, _, hmerge, ((merge_again hmergeable ?_ ?_ hmerge).2.1).2 ?_⟩
  · rw [show cabin.preorder = [0, 1, 2] by decide]
    simp only [List.forall_mem_cons]
    have hproper : ∀ description, (Payload.branch description).Proper :=
      fun d => (Payload.checked_branch (r := {}) d).toProper
    exact ⟨hproper _, hproper _, hproper _, by simp⟩
  · rw [show tint.preorder = [0, 1, 2] by decide]
    simp only [List.forall_mem_cons]
    exact ⟨fun _ => Payload.checked_branch _, fun _ => Payload.checked_branch _,
      fun _ => Payload.checked_branch _, by simp⟩
  · intro y hy hown x hx
    obtain rfl : y = 2 := by
      rw [show tint.preorder = [0, 1, 2] by decide] at hy
      have hall : ∀ y ∈ [0, 1, 2], (tint.node y).autogenerated = false → y = 2 := by decide
      exact hall y hy hown
    obtain rfl : 2 = x := Option.some.inj hx
    exact ⟨fun key _ _ => by cases key <;> rfl, fun key _ _ => by cases key <;> rfl⟩

def pairedEntries : Mapping :=
  [(.string "Cabin", branchEntry "cabin"),
    (.string "Cabin.Door", .mapping [(.string "type", .string "attribute"), (.string "description", .string "door"),
      (.string "datatype", .string "uint8"), (.string "instances",
        .list [.list [.string "Left"], .list [.string "Right"]])])]

def paired : Tree where
  nodes := #[
    { name := "Cabin", payload := .branch "cabin", children := [1] },
    { name := "Door",
      payload := {
        common := {
          description := "door"
          extra := [(.string "instances", .list [.list [.string "Left"], .list [.string "Right"]])] }
        body := .attr { datatype := "uint8" } },
      parent := some 0 }]
  root := 0

def doorway : Tree where
  nodes := #[
    { name := "Door", payload := .branch "door", parent := some 1 },
    { name := "Cabin", payload := .placeholder, autogenerated := true, children := [0] }]
  root := 1

def nested : Payload where
  common := { description := "door" }
  body := .branch [⟨["Left"]⟩, ⟨["Right"]⟩]

def joined : Payload where
  common := { description := "door" }
  body := .branch [⟨["Left", "Right"]⟩]

/-- **Levels of one name each become one level** when the overlay is merged once more. -/
theorem merge_levels_joined : build {} .strict pairedEntries = .ok ⟨paired, []⟩ ∧
    build {} .overlay [(.string "Cabin.Door", branchEntry "door")] = .ok ⟨doorway, []⟩ ∧ Mergeable paired doorway ∧
    merge {} paired doorway = (paired.declareAt 1 nested, .ok { overwritten := 1, skipped := 1 }) ∧
    merge {} (paired.declareAt 1 nested) doorway = (paired.declareAt 1 joined, .ok { overwritten := 1, skipped := 1 }) ∧
    ((paired.declareAt 1 nested).node 1).payload.instances ≠
      ((paired.declareAt 1 joined).node 1).payload.instances := by
  have hbase : build {} .strict pairedEntries = .ok ⟨paired, []⟩ := rfl
  have hoverlay : build {} .overlay [(.string "Cabin.Door", branchEntry "door")] = .ok ⟨doorway, []⟩ := rfl
  have hmergeable : Mergeable paired doorway :=
    ⟨(wellFormed_of_build hbase).1.toRooted, (wellFormed_of_build hoverlay).1, by unfold SelfFound; decide,
      by unfold SelfFound; decide⟩
  exact ⟨hbase, hoverlay, hmergeable, rfl, rfl, by decide⟩

end Tree
end SignalCatalog
