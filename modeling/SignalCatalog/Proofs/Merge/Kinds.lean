import SignalCatalog.Proofs.Merge.Exact
import SignalCatalog.Proofs.Payload.Refine
/-!
# Kinds after a merge

A refined payload has the kind of the refining one.  So where an overlay has no placeholders, a merged tree has the
overlay's kinds at the overlay's names, and the base's at all others.
-/
namespace SignalCatalog

theorem Payload.kind_of_refine {r : Registry} {b o p : Payload} (hb : b.Proper) (ho : o.Proper)
    (h : refine r b o = .ok p) :
    p.kind = o.kind := by
  obtain ⟨-, hget⟩ := get_of_readFields (readFields_of_read h)
  have htype := eq_of_written hb ho (Key.isOf_type _) (by simp [get, Key.absent]) (hget .type (Key.isOf_type _))
  exact Kind.name_inj (Option.some.inj (Field.text.inj htype))

namespace Tree

variable {r : Registry} {b o t : Tree} {stats : MergeStats} {name : String} {k : Kind} {x : NodeId}

/-- **A node of a name and a kind.** -/
def HasKind (t : Tree) (name : String) (k : Kind) : Prop :=
  ∃ x ∈ t.preorder, t.fqn x = name ∧ (t.node x).payload.kind = k

theorem SelfFound.find?_eq (h : t.SelfFound) (ht : t.Rooted) :
    t.find? name = some x ↔ x ∈ t.preorder ∧ t.fqn x = name := by
  constructor
  · exact fun hfind => ⟨mem_preorder_of_find? ht.linked hfind, fqn_of_find? ht hfind⟩
  · rintro ⟨hx, rfl⟩
    exact h x hx

namespace Merged

variable (hm : Merged r b o stats t) (hb : b.Rooted) (hfound : b.SelfFound)
  (hown : ∀ y ∈ o.preorder, (o.node y).autogenerated = false) (hbp : ∀ x ∈ b.preorder, (b.node x).payload.Proper)
  (hop : ∀ y ∈ o.preorder, (o.node y).payload.Proper)
include hm hb hfound hown hbp hop

theorem content_of_overlay {y : NodeId} (hy : y ∈ o.preorder) : ∃ x ∈ t.preorder, t.fqn x = o.fqn y ∧
    ∃ p, (t.node x).content = ⟨p, false⟩ ∧ p.kind = (o.node y).payload.kind ∧ p.Proper := by
  have ht := hm.rooted
  cases hfind : b.find? (o.fqn y) with
  | none =>
    obtain ⟨x, hx, hcontent⟩ := hm.copied y hy (hown y hy) hfind
    obtain ⟨hin, hname⟩ := (hm.selfFound.find?_eq ht).1 hx
    exact ⟨x, hin, hname, _, hcontent, rfl, hop y hy⟩
  | some x =>
    obtain ⟨hx, p, hp, hcontent⟩ := hm.refined y hy (hown y hy) x hfind
    obtain ⟨hin, hname⟩ := (hm.selfFound.find?_eq ht).1 hx
    have hproper := hbp x ((hfound.find?_eq hb).1 hfind).1
    exact ⟨x, hin, hname, p, hcontent, Payload.kind_of_refine hproper (hop y hy) hp,
      Payload.proper_of_refine hproper (hop y hy) hp⟩

theorem content_cases (hx : x ∈ t.preorder) :
    (∃ y ∈ o.preorder, o.fqn y = t.fqn x ∧ ∃ p, (t.node x).content = ⟨p, false⟩ ∧
      p.kind = (o.node y).payload.kind ∧ p.Proper) ∨
      (∀ y ∈ o.preorder, o.fqn y ≠ t.fqn x) ∧ x ∈ b.preorder ∧ b.fqn x = t.fqn x ∧
      (t.node x).content = (b.node x).content := by
  by_cases hin : ∃ y ∈ o.preorder, o.fqn y = t.fqn x
  · obtain ⟨y, hy, hname⟩ := hin
    obtain ⟨x', hx', hname', hcontent⟩ := content_of_overlay hm hb hfound hown hbp hop hy
    obtain rfl := hm.selfFound.fqn_injective hx' hx (hname'.trans hname)
    exact .inl ⟨y, hy, hname, hcontent⟩
  · push Not at hin
    have hold : x ∈ b.preorder := by
      by_contra hnew
      obtain ⟨y, hy, -, hname, -⟩ := hm.others x hx hnew fun y hy _ => hin y hy
      exact hin y hy hname
    obtain ⟨-, hname, -⟩ := hm.stays x hold
    exact .inr ⟨hin, hold, hname.symm, hm.kept x ⟨hold, fun y hy _ => hname ▸ hin y hy⟩⟩

/-- **The overlay's kinds come first.** -/
theorem hasKind_iff : t.HasKind name k ↔ o.HasKind name k ∨ (∀ k', ¬o.HasKind name k') ∧ b.HasKind name k := by
  constructor
  · rintro ⟨x, hx, rfl, rfl⟩
    rcases content_cases hm hb hfound hown hbp hop hx with ⟨y, hy, hname, p, hcontent, hkind, -⟩ |
      ⟨hnone, hold, hname, hcontent⟩
    · exact .inl ⟨y, hy, hname, hkind.symm.trans (congrArg (fun c => c.payload.kind) hcontent).symm⟩
    · refine .inr ⟨?_, x, hold, hname, congrArg (fun c => c.payload.kind) hcontent.symm⟩
      rintro k' ⟨y, hy, hname', -⟩
      exact hnone y hy hname'
  · rintro (⟨y, hy, rfl, rfl⟩ | ⟨hnone, x, hx, rfl, rfl⟩)
    · obtain ⟨x, hx, hname, p, hcontent, hkind, -⟩ := content_of_overlay hm hb hfound hown hbp hop hy
      exact ⟨x, hx, hname, (congrArg (fun c => c.payload.kind) hcontent).trans hkind⟩
    · obtain ⟨hin, hname, -⟩ := hm.stays x hx
      refine ⟨x, hin, hname, congrArg (fun c => c.payload.kind) (hm.kept x ⟨hx, fun y hy _ heq => ?_⟩)⟩
      exact hnone _ ⟨y, hy, heq, rfl⟩

end Merged
end Tree
end SignalCatalog
