import SignalCatalog.Proofs.Expand.Splice
/-!
# What nodes carry

Contents come into a forest with new nodes and are replaced by declarations only.  Edges do not matter to them: a
property of contents that new nodes have, and that a declaration keeps, holds of every node of the array, attached or
not.
-/
namespace SignalCatalog
namespace Forest

variable {G : Content → Prop} {f source : Forest} {a d p s target : Nat} {n : Node} {pl : Payload} {ts : List Nat}

/-- **All nodes of a forest carry contents of a kind.** -/
def Carries (G : Content → Prop) (f : Forest) : Prop := ∀ x < f.count, G (f.node x).content

namespace Carries

theorem modify {k : Node → Node} (h : Carries G f) (hk : ∀ n : Node, G n.content → G (k n).content) :
    Carries G (f.modify a k) := by
  intro x hx
  rw [count_modify] at hx
  rw [node_modify]
  split
  · exact hk _ (h x hx)
  · exact h x hx

theorem declare (h : Carries G f) (hpl : G ⟨pl, false⟩) : Carries G (f.modify a fun n => n.declare pl) :=
  h.modify fun _ _ => hpl

theorem detach (h : Carries G f) : Carries G (f.detach a) := by
  unfold Forest.detach
  split
  · exact h
  · exact modify (modify h fun _ hn => hn) fun _ hn => hn

theorem attach (h : Carries G f) : Carries G (f.attach p a) := by
  unfold Forest.attach
  exact modify (modify h.detach fun _ hn => hn) fun _ hn => hn

theorem foldl_attach {cs : List Nat} (h : Carries G f) : Carries G (cs.foldl (fun f c => f.attach p c) f) := by
  induction cs generalizing f with
  | nil => exact h
  | cons c cs ih => exact ih h.attach

theorem foldl_detach {cs : List Nat} (h : Carries G f) : Carries G (cs.foldl Forest.detach f) := by
  induction cs generalizing f with
  | nil => exact h
  | cons c cs ih => exact ih h.detach

theorem reorder (h : Carries G f) (first : List Nat) : Carries G (f.reorder p first) := h.modify fun _ hn => hn

theorem add (h : Carries G f) (hn : G n.content) : Carries G (f.add n).1 := by
  intro x hx
  rw [count_add] at hx
  rw [node_add]
  split
  · exact hn
  · exact h x (by omega)

theorem addChild (h : Carries G f) (hn : G n.content) : Carries G (f.addChild p n).1 := (h.add hn).attach

theorem graftWithin (hs : source.Linked) (hsource : Carries G source) (hlt : s < source.count) (h : Carries G f) :
    Carries G (source.graftWithin d f s p).1 := by
  induction d generalizing f s p with
  | zero => exact h.addChild (hsource s hlt)
  | succ d ih =>
    have hcopies : ∀ (cs : List Nat) (g : Forest) (copy : Nat), (∀ c ∈ cs, c < source.count) → Carries G g →
        Carries G (cs.foldl (fun g c => (source.graftWithin d g c copy).1) g) := by
      intro cs
      induction cs with
      | nil => exact fun _ _ _ hg => hg
      | cons c cs ihc =>
        intro g copy hcs hg
        obtain ⟨hc, hcs⟩ := List.forall_mem_cons.1 hcs
        exact ihc _ copy hcs (ih hc hg)
    exact hcopies _ _ _ (fun c hc => lt_count_of_parent? (hs.mem_children.1 hc)) (h.addChild (hsource s hlt))

theorem graft (hs : source.Linked) (hsource : Carries G source) (hlt : s < source.count) (h : Carries G f) :
    Carries G (f.graft source s p).1 := graftWithin hs hsource hlt h

/-! ## Templates -/

variable (hG : ∀ {c}, G c → G ⟨c.payload, false⟩)
include hG

theorem spliceWithin (h : Carries G f) (hf : f.Linked) (ht : target < f.count) (hts : ∀ t ∈ ts, t < f.count) :
    Carries G (f.spliceWithin d ts target) := by
  induction d generalizing f ts target with
  | zero => exact h
  | succ d ih =>
    rw [spliceWithin_succ]
    refine reorder ?_ _
    -- one template after another, in a forest that grows
    have hfold : ∀ (ts : List Nat) (acc : Forest × List NodeId), Carries G acc.1 → acc.1.Linked → target < acc.1.count →
        (∀ t ∈ ts, t < acc.1.count) → Carries G (ts.foldl (spliceOne d target) acc).1 := by
      intro ts
      induction ts with
      | nil => exact fun _ h _ _ _ => h
      | cons t ts ihts =>
        intro acc h hf ht hts
        obtain ⟨htlt, hts⟩ := List.forall_mem_cons.1 hts
        have hgrown := grown_spliceOne (t := t) (fun hf he => grown_spliceWithin (d := d) hf he) hf ht
        refine ihts _ ?_ hgrown.linked (Nat.lt_of_lt_of_le ht hgrown.count_le) fun t ht =>
          Nat.lt_of_lt_of_le (hts t ht) hgrown.count_le
        unfold spliceOne
        split
        · rename_i e he
          have hdecl := grown_declareIf (e := e) hf (acc.1.node t).payload
          have hcarry :
              Carries G (if (acc.1.node e).autogenerated then acc.1.modify e fun n => n.declare (acc.1.node t).payload
                else acc.1) := by
            split
            · exact h.declare (hG (h t htlt))
            · exact h
          refine ih hcarry hdecl.linked ?_ fun c hc => lt_count_of_parent? (hdecl.linked.mem_children.1 hc)
          exact Nat.lt_of_lt_of_le (lt_count_of_parent? (hf.mem_childNamed? he).1) hdecl.count_le
        · exact graft hf h htlt h
    exact hfold ts (f, []) h hf ht hts

theorem foldl_splice {leaves : List Nat} (h : Carries G f) (hf : f.Linked) (hts : ∀ t ∈ ts, t < f.count)
    (hleaves : ∀ x ∈ leaves, x < f.count) :
    Carries G (leaves.foldl (fun f leaf => f.splice ts leaf) f) := by
  induction leaves generalizing f with
  | nil => exact h
  | cons x leaves ih =>
    obtain ⟨hx, hleaves⟩ := List.forall_mem_cons.1 hleaves
    have hgrown : Grown x f (f.splice ts x) := grown_spliceWithin hf hx
    exact ih (spliceWithin hG h hf hx hts) hgrown.linked (fun t ht => Nat.lt_of_lt_of_le (hts t ht) hgrown.count_le)
      fun y hy => Nat.lt_of_lt_of_le (hleaves y hy) hgrown.count_le

end Carries

end Forest

theorem Tree.Rooted.content_of_carries {G : Content → Prop} {t : Tree} (ht : t.Rooted)
    (h : Forest.Carries G t.toForest) :
    ∀ x ∈ t.preorder, G (t.node x).content :=
  fun x hx => h x (ht.lt_count hx)

end SignalCatalog
