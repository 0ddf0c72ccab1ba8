import SignalCatalog.Proofs.Build.Connect
import SignalCatalog.Proofs.Expand.Intact
import SignalCatalog.Proofs.Expand.Stopped
import SignalCatalog.Proofs.Merge.Rooted
import SignalCatalog.Proofs.Payload.Again
/-!
# Trees through many calls

Trees are built, expanded, merged and pruned, one call after another, and a call that fails may have changed a tree
already.  A kind of contents that reading a payload gives, that a placeholder has, and that is left when instances are
cleared, is all that nodes ever carry: the rules of payloads are one.
-/
namespace SignalCatalog

open Forest (Carries)

/-- **Entries and trees at hand**, in the order in which they came. -/
structure Bench where
  entries : List Mapping := []
  trees : List Tree := []
  deriving Repr, Inhabited

/-- **A call on what is at hand**, told by numbers.  What it asks for may be missing. -/
inductive Call where
  | take (entries : Mapping)
  | build (mode : BuildMode) (entries : Nat)
  | complete (base entries : Nat)
  | expand (tree : Nat)
  | merge (base overlay : Nat)
  | prune (tree : Nat)
  deriving Repr

/-- **What a call leaves**, be it that it succeeds, or fails, or has nothing to work on; nothing comes of an expansion
without end. -/
def Call.run (r : Registry) (b : Bench) : Call → Option Bench
  | take entries => some { b with entries := b.entries ++ [entries] }
  | build mode i =>
    match b.entries[i]?.map (SignalCatalog.build r mode) with
    | some (.ok o) => some { b with trees := b.trees ++ [o.tree] }
    | _ => some b
  | complete i j =>
    match b.trees[i]?, b.entries[j]? with
    | some base, some entries => some { b with entries := b.entries ++ [Overlay.complete base entries] }
    | _, _ => some b
  | expand i =>
    match b.trees[i]? with
    | some t => t.expand.map fun e => { b with trees := b.trees.set i e.1 }
    | none => some b
  | merge i j =>
    match b.trees[i]?, b.trees[j]? with
    | some base, some overlay => some { b with trees := b.trees.set i (Tree.merge r base overlay).1 }
    | _, _ => some b
  | prune i =>
    match b.trees[i]? with
    | some t => some { b with trees := b.trees.set i t.prune.1 }
    | none => some b

def runCalls (r : Registry) : Bench → List Call → Option Bench
  | b, [] => some b
  | b, call :: calls => (call.run r b).bind fun b => runCalls r b calls

variable {G : Content → Prop} {r : Registry} {b b' : Bench} {call : Call} {calls : List Call} {t : Tree} {i : Nat}

/-- **A kind of contents that calls do not leave**, once all nodes carry it. -/
structure Content.Lasting (r : Registry) (G : Content → Prop) : Prop where
  placeholder : G ⟨.placeholder, true⟩
  read : ∀ v p, Payload.read r v = .ok p → G ⟨p, false⟩
  declared : ∀ {c}, G c → G ⟨c.payload, false⟩
  cleared : ∀ {c}, G c → G ⟨c.payload.clearInstances, c.autogenerated⟩

/-- **The trees at hand are trees, and all their nodes carry contents of a kind**, those too that are detached. -/
def Bench.Carries (G : Content → Prop) (b : Bench) : Prop := ∀ t ∈ b.trees, t.Rooted ∧ Forest.Carries G t.toForest

namespace Bench.Carries

theorem nil : ({} : Bench).Carries G := fun t ht => by cases ht

theorem get (h : b.Carries G) (ht : b.trees[i]? = some t) : t.Rooted ∧ Forest.Carries G t.toForest :=
  h t (List.mem_of_getElem? ht)

theorem push (h : b.Carries G) (ht : t.Rooted) (hc : Forest.Carries G t.toForest) :
    Bench.Carries G { b with trees := b.trees ++ [t] } := by
  intro u hu
  rcases List.mem_append.1 hu with hu | hu
  · exact h u hu
  · rw [List.mem_singleton.1 hu]
    exact ⟨ht, hc⟩

theorem set (h : b.Carries G) (ht : t.Rooted) (hc : Forest.Carries G t.toForest) :
    Bench.Carries G { b with trees := b.trees.set i t } := by
  intro u hu
  rcases List.mem_or_eq_of_mem_set hu with hu | rfl
  · exact h u hu
  · exact ⟨ht, hc⟩

end Bench.Carries

theorem Call.carries (hG : Content.Lasting r G) (h : b.Carries G) (hrun : call.run r b = some b') : b'.Carries G := by
  cases call with
  | take entries =>
    cases hrun
    exact h
  | build mode i =>
    rw [run] at hrun
    split at hrun
    · rename_i o hbuild
      cases hrun
      obtain ⟨data, -, hbuild⟩ := Option.map_eq_some_iff.1 hbuild
      -- a tree is added, and what it carries was read from the entries or made for a placeholder
      exact h.push (wellFormed_of_build hbuild).1.toRooted
        (carries_of_build hbuild hG.placeholder fun e _ pl hpl => hG.read e.2 pl hpl)
    · cases hrun
      exact h
  | complete i j =>
    rw [run] at hrun
    split at hrun
    all_goals
      cases hrun
      exact h
  | expand i =>
    rw [run] at hrun
    split at hrun
    · rename_i t ht
      obtain ⟨e, he, rfl⟩ := Option.map_eq_some_iff.1 hrun
      obtain ⟨hrooted, hcarry⟩ := h.get ht
      obtain ⟨hrooted', hcarries⟩ := Tree.rooted_of_expand (G := G) hrooted he
      exact h.set hrooted' (hcarries hG.declared hG.cleared hcarry)
    · cases hrun
      exact h
  | merge i j =>
    rw [run] at hrun
    split at hrun
    · rename_i base overlay hbase hoverlay
      cases hrun
      obtain ⟨hb, hbc⟩ := h.get hbase
      obtain ⟨ho, hoc⟩ := h.get hoverlay
      have hmerged := Tree.merge_extended hG.placeholder hG.read hb ho hoc
      exact h.set (hmerged.rooted hb) (hmerged.carries hbc)
    · cases hrun
      exact h
  | prune i =>
    rw [run] at hrun
    split at hrun
    · rename_i t ht
      cases hrun
      obtain ⟨hrooted, hcarry⟩ := h.get ht
      exact h.set hrooted.prune (Carries.foldl_detach hcarry)
    · cases hrun
      exact h

theorem carries_of_calls (hG : Content.Lasting r G) (h : b.Carries G) (hrun : runCalls r b calls = some b') :
    b'.Carries G := by
  induction calls generalizing b with
  | nil =>
    cases hrun
    exact h
  | cons call calls ih =>
    obtain ⟨b₁, hone, hrest⟩ := Option.bind_eq_some_iff.1 hrun
    exact ih (call.carries hG h hone) hrest

/-! ## Payloads that keep the rules -/

theorem Payload.validate_clearInstances (p : Payload) : p.clearInstances.validate r = p.validate r := by
  obtain ⟨common, body⟩ := p
  cases body <;> rfl

theorem lasting_valid : Content.Lasting r fun c => c.payload.validate r = .ok () where
  placeholder := rfl
  read := fun _ _ h => Payload.validate_of_read h
  declared := id
  cleared := fun {c} h => (c.payload.validate_clearInstances).trans h

/-- **Whatever is called, in whatever order, and whatever fails**: every payload of every tree keeps the rules. -/
theorem valid_of_calls (h : runCalls r {} calls = some b) :
    ∀ t ∈ b.trees, ∀ x ∈ t.preorder, (t.node x).payload.validate r = .ok () := by
  intro t ht
  obtain ⟨hrooted, hcarry⟩ := carries_of_calls lasting_valid Bench.Carries.nil h t ht
  exact hrooted.content_of_carries hcarry

namespace Tree

def fanEntries : Mapping :=
  [(.string "Cabin", branchEntry "cabin"),
    (.string "Cabin.Fan", .mapping [(.string "type", .string "attribute"), (.string "description", .string "fan"),
      (.string "datatype", .string "uint8"), (.string "allowed", .list [.number (.int 0), .number (.int 3)])])]

def boundEntries : Mapping :=
  [(.string "Cabin.Hatch", branchEntry "hatch"), (.string "Cabin.Fan", .mapping [(.string "max", .number (.int 3))])]

end Tree

def fanCalls : List Call :=
  [.take Tree.doorEntries, .build .strict 0, .expand 0, .take Tree.fanEntries, .build .strict 1,
    .take Tree.boundEntries, .complete 1 2, .build .overlay 3, .merge 1 2, .prune 1]

theorem valid_of_fanCalls : ∃ b, runCalls {} {} fanCalls = some b ∧ b.trees.map Tree.nodeCount = [6, 3, 3] ∧
    ∀ t ∈ b.trees, ∀ x ∈ t.preorder, (t.node x).payload.validate {} = .ok () := by
  have hexpand : (Call.expand 0).run {} ⟨[Tree.doorEntries], [Tree.doors]⟩ = some
      ⟨[Tree.doorEntries], [Tree.doorsDone]⟩ :=
    congrArg (Option.map fun e : Tree × Except ExpansionError ExpansionStats => Bench.mk [Tree.doorEntries] [e.1])
      Tree.expand_doors
  have hrun : runCalls {} {} fanCalls =
      ((Call.expand 0).run {} ⟨[Tree.doorEntries], [Tree.doors]⟩).bind fun b => runCalls {} b (fanCalls.drop 3) := rfl
  have hcounts : (runCalls {} {} fanCalls).map (fun b => b.trees.map Tree.nodeCount) = some [6, 3, 3] := by
    rw [hrun, hexpand]
    rfl
  obtain ⟨b, hb, hcount⟩ := Option.map_eq_some_iff.1 hcounts
  exact ⟨b, hb, hcount, valid_of_calls hb⟩

end SignalCatalog
