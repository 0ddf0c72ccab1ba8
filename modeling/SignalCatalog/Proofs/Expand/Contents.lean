import SignalCatalog.Proofs.Expand.Branch
/-!
# Expansions as functions of contents

Where siblings differ, what a branch holds after its expansion is a function of what it held before, path by path.  A
layer with finitely many paths stays one, so that for a given branch the result can be computed.
-/
namespace SignalCatalog

namespace Layer

variable {l : Layer} {K : List (List String)} {levels : List (List String)} {q : List String} {c : Content}

theorem payload_onto (c : Content) (old : Option Content) :
    (c.onto old).payload = c.payload ∨ old = some (c.onto old) := by
  cases old with
  | none => exact .inl rfl
  | some o =>
    rw [Content.onto]
    split
    · exact .inl rfl
    · exact .inr rfl

theorem exists_of_fill {o : Layer} (h : l.fill o q = some c) :
    (∃ e, o q = some e ∧ c.payload = e.payload) ∨ l q = some c := by
  cases ho : o q with
  | none => exact .inr (by rwa [fill_of_none ho] at h)
  | some e =>
    rw [fill_of_some ho, Option.some_inj] at h
    subst h
    exact (payload_onto e (l q)).imp_left fun h => ⟨e, rfl, h⟩

def template (first : List String) (l : Layer) : Layer
  | [] => none
  | name :: q =>
    if (l [name]).any (fun c => c.payload.common.instantiate) && !first.contains name then l (name :: q) else none

def rest (first : List String) (l : Layer) : Layer := fun q => if l.template first q = none then l q else none

/-- **The contents of a branch after its expansion**, from those before it. -/
def expanded (levels : List (List String)) (l : Layer) : Layer
  | [] => (l []).map fun c => ⟨c.payload.clearInstances, c.autogenerated⟩
  | name :: q =>
    let proto := ((l []).map fun c => c.payload.clearInstances).getD .placeholder
    (((l.rest (levels.head?.getD [])).fill (.mark ⟨proto, false⟩ (Level.paths levels [[]]))).fill
      ((l.template (levels.head?.getD [])).spread (Level.leaves levels [[]]))) (name :: q)

theorem template_append {first : List String} (hq : q ≠ []) (h : l q ≠ none) (s : List String) :
    l.template first q = none ∧ l.template first (q ++ s) = none ∨ l.template first q ≠ none ∧
    l.template first (q ++ s) = l (q ++ s) := by
  obtain ⟨name, r, rfl⟩ := List.exists_cons_of_ne_nil hq
  rw [List.cons_append, template, template]
  split
  · exact .inr ⟨h, rfl⟩
  · exact .inl ⟨rfl, rfl⟩

/-- **All paths of a layer are on a list.** -/
def SupportedBy (l : Layer) (K : List (List String)) : Prop := ∀ q, l q ≠ none → q ∈ K

theorem SupportedBy.of_all (h : l.SupportedBy K) (test : List String → Content → Bool)
    (hK : ∀ q ∈ K, (l q).all (test q) = true) (hq : l q = some c) : test q c = true := by
  simpa [hq] using hK q (h q (by simp [hq]))

def expandedPaths (levels : List (List String)) (K : List (List String)) : List (List String) :=
  K ++ Level.paths levels [[]] ++ (Level.leaves levels [[]]).flatMap fun p => K.map (p ++ ·)

theorem SupportedBy.template {first : List String} (h : l.SupportedBy K) : (l.template first).SupportedBy K := by
  intro q hq
  cases q with
  | nil => exact absurd rfl hq
  | cons name q =>
    rw [Layer.template] at hq
    split at hq
    · exact h _ hq
    · exact absurd rfl hq

theorem SupportedBy.expanded (h : l.SupportedBy K) : (l.expanded levels).SupportedBy (expandedPaths levels K) := by
  intro q hq
  rw [expandedPaths, List.mem_append, List.mem_append]
  cases q with
  | nil => exact .inl (.inl (h _ (by simpa [Layer.expanded] using hq)))
  | cons name q =>
    rw [Layer.expanded, ne_eq, fill_eq_none, fill_eq_none, not_and_or, not_and_or] at hq
    rcases hq with (hrest | hmark) | hspread
    · refine .inl (.inl (h _ fun hl => hrest ?_))
      rw [rest, hl]
      exact ite_self none
    · refine .inl (.inr ?_)
      by_contra hno
      exact hmark (mark_of_not_mem hno)
    · obtain ⟨c, hc⟩ := Option.ne_none_iff_exists'.1 hspread
      obtain ⟨p, hp, r, heq, hr⟩ := exists_of_spread hc
      have hr' : l.template (levels.head?.getD []) r ≠ none := by simp [hr]
      exact .inr (List.mem_flatMap.2 ⟨p, hp, List.mem_map.2 ⟨r, h.template r hr', heq.symm⟩⟩)

theorem SupportedBy.ext {o : Layer} (h : l.SupportedBy K) (ho : o.SupportedBy K) (hK : ∀ q ∈ K, l q = o q) : l = o := by
  funext q
  by_cases hq : q ∈ K
  · exact hK q hq
  · rw [Decidable.of_not_not (mt (h q) hq), Decidable.of_not_not (mt (ho q) hq)]

end Layer

namespace Forest

variable {f : Forest} {a d : Nat} {q : List String}

def pathsWithin : (d : Nat) → Forest → (a : NodeId) → List (List String)
  | 0, _, _ => [[]]
  | d + 1, f, a => [] :: (f.children a).flatMap fun c => (pathsWithin d f c).map ((f.node c).name :: ·)

theorem mem_pathsWithin (h : f.content? a q ≠ none) (hq : q.length ≤ d) : q ∈ f.pathsWithin d a := by
  induction d generalizing a q with
  | zero => simp_all [pathsWithin]
  | succ d ih =>
    rw [pathsWithin, List.mem_cons]
    refine or_iff_not_imp_left.2 fun hne => ?_
    obtain ⟨name, r, rfl⟩ := List.exists_cons_of_ne_nil hne
    rw [content?_cons] at h
    cases hc : f.childNamed? a name with
    | none => simp [hc] at h
    | some c =>
      rw [hc, Option.bind_some] at h
      rw [childNamed?] at hc
      have hname : (f.node c).name = name := by simpa using List.find?_some hc
      exact List.mem_flatMap.2 ⟨c, List.mem_of_find?_eq_some hc,
        List.mem_map.2 ⟨r, ih h (by simpa using hq), by rw [hname]⟩⟩

theorem supportedBy_content? (hf : f.Linked) : (f.content? a).SupportedBy (f.pathsWithin f.count a) := by
  intro q hq
  cases hd : f.descend? a q with
  | none =>
    rw [content?, hd] at hq
    exact absurd rfl hq
  | some x => exact mem_pathsWithin hq (hf.length_le_count (hf.route_of_descend? hd))

end Forest

namespace Tree

variable {t t' : Tree} {n : Nat} {levels : List (List String)} {c : Content}

theorem templateContents_eq (ht : t.Linked) (hd : t.DistinctBelow n) :
    t.templateContents n levels = (t.content? n).template (levels.head?.getD []) := by
  funext q
  cases q with
  | nil => rfl
  | cons name q =>
    rw [templateContents, Forest.contents?, Layer.template, Forest.content?_cons, Forest.content?_cons]
    cases hc : t.childNamed? n name with
    | none =>
      have hnone : (t.template n levels).find? (fun x => (t.node x).name == name) = none := by
        refine List.find?_eq_none.2 fun x hx => ?_
        have := ht.childNamed?_eq_none.1 hc x (parent?_of_mem_template ht hx)
        simpa using this
      rw [hnone]
      simp
    | some c =>
      obtain ⟨hparent, hname⟩ := ht.mem_childNamed? hc
      have hmem : c ∈ t.template n levels ↔
          ((t.node c).payload.common.instantiate && !(levels.head?.getD []).contains (t.node c).name) = true := by
        rw [template, templates, List.mem_filter, and_iff_right (ht.mem_children.2 hparent)]
      rw [Option.bind_some, Option.bind_some, Forest.content?_nil, Option.any_some, ← hname]
      split
      · rename_i hin
        have hsome : (t.template n levels).find? (fun x => (t.node x).name == (t.node c).name) = some c := by
          cases hfind : (t.template n levels).find? fun x => (t.node x).name == (t.node c).name with
          | none => exact absurd (List.find?_eq_none.1 hfind c (hmem.2 hin)) (by simp)
          | some d =>
            rw [hd .refl (parent?_of_mem_template ht (List.mem_of_find?_eq_some hfind)) hparent
              (by simpa using List.find?_some hfind)]
        rw [hsome, Option.bind_some]
      · rename_i hin
        have hnone : (t.template n levels).find? (fun x => (t.node x).name == (t.node c).name) = none := by
          refine List.find?_eq_none.2 fun x hx heq => hin (hmem.1 ?_)
          rwa [← hd .refl (parent?_of_mem_template ht hx) hparent (by simpa using heq)]
        rw [hnone]
        rfl

theorem restContents_eq (ht : t.Linked) (hd : t.DistinctBelow n) :
    t.restContents n levels = (t.content? n).rest (levels.head?.getD []) := by
  funext q
  rw [restContents, Layer.rest, templateContents_eq ht hd]

/-- **An expansion, told by the contents alone.** -/
theorem Expanded.content?_expanded (h : t.Expanded n levels t') (ht : t.Linked) (hd : t.DistinctBelow n) :
    t'.content? n = (t.content? n).expanded levels := by
  funext q
  cases q with
  | nil => rw [Forest.content?_nil, h.own]; rfl
  | cons name q => rw [h.below, expandedContents, restContents_eq ht hd, templateContents_eq ht hd]; rfl

/-- **An expansion that nothing hinders**, told by the contents alone. -/
theorem expandNode_expands {l : Layer} (ht : t.WellFormed) (hd : t.DistinctBelow n) (hlt : n < t.count)
    (hl : t.content? n = l) (hc : l [] = some c) (hbranch : c.payload.kind = .branch)
    (hlevels : levelNames c.payload = .ok levels) (hdup : ∀ names ∈ levels, names.Nodup)
    (hclear : (l.rest (levels.head?.getD [])).ClearAt (Level.paths levels [[]])) :
    ∃ created t', (expandNode n).on t = (.ok created, t') ∧ t.Expanded n levels t' ∧
    t'.content? n = l.expanded levels := by
  have hself : (t.node n).payload = c.payload := by
    rw [← hl, Forest.content?_nil, Option.some_inj] at hc
    exact congrArg Content.payload hc
  rw [← hself] at hbranch hlevels
  rw [← hl, ← restContents_eq ht.linked hd] at hclear
  obtain ⟨t', hon, h⟩ := expandNode_expanded ht.linked hd hlt hbranch hlevels ht.children_nodup hdup hclear
  exact ⟨_, t', hon, h, by rw [h.content?_expanded ht.linked hd, hl]⟩

end Tree
end SignalCatalog
