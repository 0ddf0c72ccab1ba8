import SignalCatalog.Proofs.Expand.Nesting
/-!
# Expansions that nothing hinders

Where every level can be read and no child stands at the place of an instance of its parent, no expansion fails, and
each leaves a tree of the same kind: what is pending afterwards has the levels it had at its origin, and below it there
is nothing that was not there.
-/
namespace SignalCatalog

namespace Layer

variable {l : Layer} {levels : List (List String)} {q : List String} {c : Content} {name : String}

/-- **Nothing is below a path at which there is nothing.** -/
def Closed (l : Layer) : Prop := ∀ q r, l q = none → l (q ++ r) = none

/-- **Every pending branch can be expanded**: its levels can be read and repeat no name, and the places of its first
instances are free. -/
def Unhindered (l : Layer) : Prop :=
  ∀ q c, l q = some c → c.payload.instances ≠ [] → ∃ levels, Tree.levelNames c.payload = .ok levels ∧
  (∀ names ∈ levels, names.Nodup) ∧ ∀ name ∈ levels.head?.getD [], l (q ++ [name]) = none

theorem Unhindered.below (h : l.Unhindered) (p : List String) : (l.below p).Unhindered := fun q c hq hc => by
  obtain ⟨levels, hlevels, hdup, hfree⟩ := h (p ++ q) c hq hc
  refine ⟨levels, hlevels, hdup, fun name hname => ?_⟩
  rw [Layer.below, ← List.append_assoc]
  exact hfree name hname

theorem Unhindered.separate (h : l.Unhindered) (hclosed : l.Closed) : l.Separate := by
  intro q c levels hq hc hlevels
  obtain ⟨levels', hlevels', hdup, hfree⟩ := h q c hq hc
  rw [hlevels] at hlevels'
  cases hlevels'
  refine ⟨hdup, fun name hname r hpending => ?_⟩
  obtain ⟨e, he, -⟩ := hpending
  have hnone := hclosed _ r (hfree name hname)
  rw [List.append_assoc, List.singleton_append, he] at hnone
  cases hnone

section Root

variable (h : l.Unhindered) (hclosed : l.Closed) (hc : l [] = some c) (hinst : c.payload.instances ≠ [])
  (hlevels : Tree.levelNames c.payload = .ok levels)
include h hclosed hc hinst hlevels

theorem free_of_mem (hname : name ∈ levels.head?.getD []) (q : List String) : l (name :: q) = none := by
  obtain ⟨levels', hlevels', -, hfree⟩ := h [] c hc hinst
  rw [hlevels] at hlevels'
  cases hlevels'
  exact hclosed [name] q (hfree name hname)

theorem rest_of_mem (hname : name ∈ levels.head?.getD []) (q : List String) :
    l.rest (levels.head?.getD []) (name :: q) = none := by
  rw [rest, free_of_mem h hclosed hc hinst hlevels hname]
  exact ite_self none

theorem origin_ne_none (hq : l.expanded levels q ≠ none) (hnil : q ≠ []) (hinstance : ¬ Level.IsInstance levels q) :
    l (origin levels q) ≠ none := by
  obtain ⟨name, q, rfl⟩ := List.exists_cons_of_ne_nil hnil
  rw [origin]
  split
  · rename_i hname
    rw [Layer.expanded, ne_eq, fill_eq_none, fill_eq_none, rest_of_mem h hclosed hc hinst hlevels hname,
      mark_of_not_mem (mt Level.mem_paths_iff.1 hinstance), and_iff_right ⟨rfl, rfl⟩] at hq
    obtain ⟨e, he⟩ := Option.ne_none_iff_exists'.1 hq
    obtain ⟨leaf, hleaf, r, heq, hr⟩ := exists_of_spread he
    rw [heq, ← (Level.mem_leaves_iff.1 hleaf).length_eq, List.drop_left, (template_eq hr).1]
    simp
  · rename_i hname
    rw [expanded_of_not_mem hname (levels_ne_nil hinst hlevels), rest] at hq
    split at hq
    · exact hq
    · exact absurd rfl hq

theorem Unhindered.expanded : (l.expanded levels).Unhindered := by
  intro q e hq he
  have hs := h.separate hclosed
  obtain ⟨hne, ⟨o, ho, hpay⟩, happ⟩ := origin_of_expanded hs hc hinst hlevels hq he
  obtain ⟨levels', hlevels', hdup, hfree⟩ := h _ o ho (hpay ▸ he)
  refine ⟨levels', hpay ▸ hlevels', hdup, fun name hname => ?_⟩
  by_contra hsome
  refine origin_ne_none h hclosed hc hinst hlevels hsome (by simp) (fun hinstance => hne ?_) ?_
  · -- a path above an instance is one of an instance, and nothing is pending there
    have hlen := hinstance.length_le
    cases q with
    | nil => rfl
    | cons first q =>
      obtain ⟨names, levels, rfl⟩ := List.exists_cons_of_ne_nil (levels_ne_nil hinst hlevels)
      have hmem : first ∈ (names :: levels).head?.getD [] := (List.forall₂_cons.1 hinstance.2).1
      rw [origin, if_pos hmem]
      refine List.drop_eq_nil_of_le ?_
      rw [List.length_append, List.length_singleton] at hlen
      omega
  · rw [happ, hfree name hname]

end Root

end Layer

namespace Tree

variable {t t' : Tree} {n : Nat} {levels : List (List String)} {p : List String}

theorem closed_content? (f : Forest) (a : NodeId) : Layer.Closed (f.content? a) := fun q r hq => by
  rw [Forest.content?, Option.map_eq_none_iff] at hq ⊢
  rw [Forest.descend?_append, hq]
  rfl

/-- **An expansion leaves a tree in which nothing hinders the next one.** -/
theorem Expanded.unhindered (h : t.Expanded n levels t') (ht : t.WellFormed) (hs : t.SiblingsDiffer)
    (hp : t.Route t.root p n) (hu : t.contents.Unhindered) (hinst : (t.node n).payload.instances ≠ [])
    (hlevels : levelNames (t.node n).payload = .ok levels) :
    t'.contents.Unhindered := by
  intro q c hq hc
  by_cases hpq : p <+: q
  · obtain ⟨r, rfl⟩ := hpq
    rw [h.contents_of_prefix ht hs hp] at hq
    have hbelow :=
      (content?_eq_below ht hs hp ▸ hu.below p).expanded (closed_content? _ n) (Forest.content?_nil ..) hinst hlevels
    obtain ⟨levels', hlevels', hdup, hfree⟩ := hbelow r c hq hc
    refine ⟨levels', hlevels', hdup, fun name hname => ?_⟩
    rw [List.append_assoc, h.contents_of_prefix ht hs hp, hfree name hname]
  · rw [h.contents_of_not_below ht hs hp hpq] at hq
    obtain ⟨levels', hlevels', hdup, hfree⟩ := hu q c hq hc
    refine ⟨levels', hlevels', hdup, fun name hname => ?_⟩
    by_cases hpr : p <+: q ++ [name]
    · -- the branch itself would stand at the place of an instance
      have heq : p = q ++ [name] := (List.prefix_concat_iff.1 hpr).resolve_right hpq
      have hsome : t.contents p = some (t.node n).content := Forest.content?_of_route ht.linked hs hp
      rw [heq, hfree name hname] at hsome
      cases hsome
    · rw [h.contents_of_not_below ht hs hp hpr, hfree name hname]

/-- **A pending branch in a tree that hinders nothing is expanded.** -/
theorem expandNode_of_unhindered (ht : t.WellFormed) (hs : t.SiblingsDiffer) (hu : t.contents.Unhindered)
    (hp : t.Route t.root p n) (hinst : (t.node n).payload.instances ≠ []) :
    ∃ levels created t', levelNames (t.node n).payload = .ok levels ∧ (expandNode n).on t = (.ok created, t') ∧
    t.Expanded n levels t' ∧
      t'.contents.Unhindered := by
  obtain ⟨levels, hlevels, hdup, -⟩ := hu p _ (Forest.content?_of_route ht.linked hs hp) hinst
  have hd := hs.mono ⟨p, hp⟩
  have hbelow : (t.content? n).Unhindered := content?_eq_below ht hs hp ▸ hu.below p
  have hclear : (t.restContents n levels).ClearAt (Level.paths levels [[]]) := by
    intro q hq c hc
    have hinstance := Level.mem_paths_iff.1 hq
    obtain ⟨name, q, rfl⟩ := List.exists_cons_of_ne_nil hinstance.1
    obtain ⟨names, rest, rfl⟩ :=
      List.exists_cons_of_ne_nil (Layer.levels_ne_nil (c := (t.node n).content) hinst hlevels)
    have hname : name ∈ names := (List.forall₂_cons.1 hinstance.2).1
    rw [restContents_eq ht.linked hd, Layer.rest_of_mem hbelow (closed_content? _ n) (Forest.content?_nil ..)
      hinst hlevels hname] at hc
    cases hc
  obtain ⟨t', hon, hexp⟩ :=
    expandNode_expanded ht.linked hd (hp.lt_count ht.root_lt_count) (Payload.kind_of_instances hinst) hlevels
    ht.children_nodup hdup hclear
  exact ⟨levels, _, t', hlevels, hon, hexp, hexp.unhindered ht hs hp hu hinst hlevels⟩

end Tree
end SignalCatalog
