import SignalCatalog.Proofs.Build.Overlay
import SignalCatalog.Proofs.Expand.Regular
/-!
# Placeholders above declared nodes

An overlay build makes a placeholder only where a declared node stands below it, and an expansion hands on the two
together.
-/
namespace SignalCatalog
namespace Tree

variable {t t' u : Tree} {n x : Nat} {q s : List String} {c : Content} {levels : List (List String)} {ids : List NodeId}

/-- **Below every placeholder there is a declared node.** -/
def Anchored (t : Tree) : Prop :=
  ∀ x ∈ t.preorder, (t.node x).autogenerated = true → ∃ y, t.Below x y ∧ (t.node y).autogenerated = false

theorem Anchored.exists_deeper (hall : t.Anchored) (ht : t.WellFormed) (hs : t.SiblingsDiffer) (hn : t.Below t.root n)
    (hc : t.content? n q = some c) (hauto : c.autogenerated = true) :
    ∃ s d, t.content? n (q ++ s) = some d ∧ d.autogenerated = false := by
  obtain ⟨y, hy, hroute, rfl⟩ := Expanded.exists_of_content? ht hs hn hc
  obtain ⟨z, ⟨s, hz⟩, hzown⟩ := hall y hy hauto
  exact ⟨s, _, Forest.content?_of_route ht.linked (hs.mono hn) (hroute.trans hz), hzown⟩

theorem Expanded.exists_below (h : t.Expanded n levels t') (hne : q ≠ []) (hq : t'.Route n q x)
    (hc : t.expandedContents n levels (q ++ s) = some c) (hdown : c.autogenerated = false) :
    ∃ y, t'.Below x y ∧ (t'.node y).autogenerated = false := by
  rw [← (h.content?_eq).trans (if_neg (by simp [hne])), Forest.content?_eq_some h.regrown.linked h.distinct] at hc
  obtain ⟨y, hy, rfl⟩ := hc
  obtain ⟨z, hz, hzy⟩ := hy.of_append
  obtain rfl := h.regrown.linked.route_right_unique h.distinct hz hq
  exact ⟨y, ⟨s, hzy⟩, hdown⟩

theorem Expanded.anchored (h : t.Expanded n levels t') (ht : t.WellFormed) (hs : t.SiblingsDiffer)
    (hn : t.Below t.root n) (hdup : ∀ names ∈ levels, names.Nodup) (hown : (t.node n).autogenerated = false)
    (hall : t.Anchored) : t'.Anchored := by
  have hd := hs.mono hn
  intro x hx hauto
  rcases h.node_cases ht hn hx with ⟨hin, hout, hnode⟩ | ⟨rfl, hcontent⟩ | ⟨q, hne, hq, hsource⟩
  · rw [hnode] at hauto
    obtain ⟨y, ⟨s, hy⟩, hyown⟩ := hall x hin hauto
    by_cases hny : t.Below n y
    · -- the branch itself is declared, and it stands below the node
      have hxn := (hy.below_or_above hny).resolve_right hout
      exact ⟨n, h.regrown.below_branch ht.linked hxn, (congrArg Content.autogenerated h.own).trans hown⟩
    · have hyin : y ∈ t.preorder := (mem_preorder ht.linked).2 (((mem_preorder ht.linked).1 hin).trans ⟨s, hy⟩)
      have hroute := h.regrown.route ht.linked hy fun c hc hcy =>
        hny ((Forest.Below.refl.down (h.regrown.child c hc)).trans hcy)
      refine ⟨y, ⟨s, hroute⟩, ?_⟩
      rw [((h.outside ht hn).1 y hyin hny).2.2, hyown]
  · rw [show (t'.node x).autogenerated = _ from congrArg Content.autogenerated hcontent, hown] at hauto
    cases hauto
  · generalize hc : (t'.node x).content = c at hsource
    have hcauto : c.autogenerated = true := by rw [← hc]; exact hauto
    cases hsource with
    | kept hrest =>
      have hold := content?_of_restContents hrest
      obtain ⟨s, d, hdeep, hdown⟩ := hall.exists_deeper ht hs hn hold hcauto
      have hnone : t.templateContents n levels q = none := by
        by_contra hsome
        rw [restContents, if_neg hsome] at hrest
        cases hrest
      rw [templateContents_eq ht.linked hd] at hnone
      have htemplate := (Layer.template_append hne (by simp [hold]) s).resolve_right fun h => h.1 hnone
      refine h.exists_below (s := s) hne hq (expandedContents_kept hdup ?_ (.inl hdown)) hdown
      rw [restContents, templateContents_eq ht.linked hd, if_pos htemplate.2, hdeep]
    | instanced => cases hcauto
    | @copied leaf p _ hleaf hpq hp =>
      subst hpq
      have hold := content?_of_templateContents ht.linked hd hp
      obtain ⟨s, d, hdeep, hdown⟩ := hall.exists_deeper ht hs hn hold hcauto
      have hpne : p ≠ [] := by
        rintro rfl
        cases hp
      rw [templateContents_eq ht.linked hd] at hp
      have hsome : t.content? n p ≠ none := by simp [hold]
      have htemplate := (Layer.template_append hpne hsome s).resolve_left fun h => by
        rw [h.1] at hp
        cases hp
      have hcopy : t.copies n levels (leaf ++ (p ++ s)) = some d := by
        rw [copies_append hdup hleaf, templateContents_eq ht.linked hd, htemplate.2, hdeep]
      have hput : t.expandedContents n levels (leaf ++ (p ++ s)) = _ := Layer.fill_of_some hcopy
      rw [← List.append_assoc] at hput
      exact h.exists_below hne hq hput (Content.onto_declared hdown _)
    | merged => cases hcauto

theorem Reaches.anchored (h : t.Reaches ids u) (ht : t.Regular) (hall : t.Anchored) : u.Anchored :=
  h.preserves (fun h hid hon ih => by
    have hstate := h.regularState ht
    obtain ⟨hbelow, hinst, levels, -, hdup, hexp⟩ := hstate.exists_expanded hid hon
    have hown := hstate.regular.declared hbelow hinst
    exact hexp.anchored hstate.regular.toWellFormed hstate.regular.siblingsDiffer hbelow hdup hown ih) hall

end Tree

/-- **An overlay build makes placeholders above declared nodes only.** -/
theorem anchored_of_build {r : Registry} {data : Mapping} {o : BuildOutcome} (h : build r .overlay data = .ok o) :
    o.tree.Anchored := by
  obtain ⟨b, hadd, hfinish⟩ := exists_addAll_of_build h
  have hb := Builder.complete_of_addAll hadd
  rw [hb.finish] at hfinish
  cases hun : b.unattached with
  | nil =>
    rw [hun] at hfinish
    cases hfinish
  | cons e l =>
    obtain ⟨name, root⟩ := e
    rw [hun] at hfinish
    cases l with
    | cons e' l => cases hfinish
    | nil =>
      cases hfinish
      obtain ⟨hconn, hfirst⟩ := hb.connecting hun
      have hs := hconn.sound
      intro x hx _
      obtain ⟨q, hq⟩ := (Tree.mem_preorder hs.linked).1 hx
      obtain ⟨fqn, he⟩ := hs.exists_placed ((hconn.mem_preorder_iff hfirst).1 hx)
      obtain ⟨d, hd, hown, hpre⟩ := hb.anchored _ he
      obtain ⟨p, hp⟩ := hconn.below_root hd (hfirst _ hd) (by simp)
      rw [hs.segments_of_route hconn.root_placed hq he, hs.segments_of_route hconn.root_placed hp hd,
        List.prefix_append_right_inj] at hpre
      obtain ⟨s, rfl⟩ := hpre
      obtain ⟨y, hy, hyd⟩ := hp.of_append
      -- names tell the nodes
      obtain ⟨fqn', he'⟩ := hs.exists_placed (hy.lt_count (hs.lt_count hconn.root_placed))
      have hsame : fqn' = fqn := QualifiedName.segments_injective
        ((hs.segments_of_route hconn.root_placed hy he').trans (hs.segments_of_route hconn.root_placed hq he).symm)
      obtain rfl : y = x := hs.id_unique (hsame ▸ he') he
      exact ⟨d.2, ⟨s, hyd⟩, hown⟩

end SignalCatalog
