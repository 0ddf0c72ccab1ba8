import SignalCatalog.Proofs.Forest.Graft
import SignalCatalog.Proofs.Forest.Named
import SignalCatalog.Tree.Merge
/-!
# Making missing ancestors

A path that is followed with placeholders made for the nodes that are missing: they come in at the free beginnings of
the path, and nothing else does.
-/
namespace SignalCatalog

def Content.placeholder : Content := ⟨.placeholder, true⟩

namespace Layer

variable {l : Layer} {name : String} {names q : List String} {c : Content}

/-- **Placeholders at the free beginnings of a path.** -/
def missing (l : Layer) (names : List String) : Layer :=
  fun q => if q <+: names ∧ l q = none then some .placeholder else none

theorem missing_eq_some : l.missing names q = some c ↔ (q <+: names ∧ l q = none) ∧ c = .placeholder := by
  rw [missing]
  split
  · rename_i h
    simp [h, eq_comm]
  · rename_i h
    simp [h]

theorem missing_of_some (h : l q ≠ none) : l.missing names q = none := if_neg fun h' => h h'.2

theorem missing_nil (h : l [] ≠ none) : l.missing [] = fun _ => none := by
  funext q
  refine if_neg fun h' => h ?_
  rw [← List.prefix_nil.1 h'.1]
  exact h'.2

theorem missing_cons (h : l [] ≠ none) : l.missing (name :: names) = ((l.below [name]).missing names).shift [name] := by
  funext q
  cases q with
  | nil => exact missing_of_some h
  | cons m q =>
    rw [shift, shift_nil]
    by_cases hm : name = m
    · subst hm
      rw [if_pos rfl]
      exact if_congr (by rw [List.cons_prefix_cons, below, List.singleton_append, eq_self, true_and]) rfl rfl
    · rw [if_neg hm]
      exact if_neg fun h' => hm (List.cons_prefix_cons.1 h'.1).1.symm

theorem missing_of_free :
    missing (fun _ => none) names = fun q => (single .placeholder q).or ((single .placeholder).missing names q) := by
  funext q
  cases q with
  | nil => simp [missing, single]
  | cons m q => simp [missing, single]

end Layer

namespace Tree

variable {t : Tree} {a : Nat} {names : List String}

/-- **A tree in which a path has been followed to its end.** -/
structure Ensured (a : Nat) (names : List String) (t : Tree) (r : Tree × NodeId) : Prop where
  same_root : r.1.root = t.root
  filled : Forest.Filled a ((t.content? a).missing names) t.toForest r.1.toForest
  nodup : t.ChildrenNodup → r.1.ChildrenNodup
  route : r.1.Route a names r.2

theorem ensured_ensureBelow (ht : t.Linked) (hd : t.DistinctBelow a) (ha : a < t.count) :
    Ensured a names t (t.ensureBelow a names) := by
  induction names generalizing t a with
  | nil => exact ⟨rfl, (Forest.Filled.refl ht hd).of_eq (Layer.missing_nil (by simp)).symm, id, .here⟩
  | cons name names ih =>
    rw [ensureBelow]
    cases hc : t.childNamed? a name with
    | some c =>
      obtain ⟨hparent, rfl⟩ := ht.mem_childNamed? hc
      have hone : t.Route a [(t.node c).name] c := .single hparent
      have h := ih ht (hd.mono (Forest.Below.refl.down hparent)) (Forest.lt_count_of_parent? hparent)
      have hbelow : t.content? c = (t.content? a).below [(t.node c).name] :=
        funext fun _ => (Forest.content?_append ht hd hone).symm
      refine ⟨h.same_root, (h.filled.lift ht hd hone).of_eq ?_, h.nodup, ?_⟩
      · rw [Layer.missing_cons (by simp), hbelow]
      · exact (h.filled.route hone).trans h.route
    | none =>
      have hadd := Forest.filled_addChild (n := .placeholder name) ht hd ha rfl rfl hc
      have hone := Forest.route_addChild (f := t.toForest) (n := .placeholder name) ha rfl rfl
      have hlt : t.count < (t.withForest (t.addChild a (.placeholder name)).1).count := by
        rw [withForest, Forest.count_addChild]
        exact Nat.lt_succ_self _
      have h := ih hadd.linked (hadd.distinct.mono ⟨_, hone⟩) hlt
      -- below the new node there is nothing yet, so all that is missing is made
      have hempty : (t.withForest (t.addChild a (.placeholder name)).1).content? t.count = .single .placeholder := by
        funext q
        cases q with
        | nil =>
          change some (Forest.node (t.addChild a (.placeholder name)).1 t.count).content = _
          rw [Forest.node_addChild ha rfl rfl, if_pos rfl]
          rfl
        | cons m q =>
          have hchildren : (t.addChild a (.placeholder name)).1.children t.count = [] := by
            rw [Forest.children_addChild ha rfl rfl, if_neg (Nat.ne_of_gt ha),
              Forest.children_of_count_le (Nat.le_refl _)]
          rw [Forest.content?_cons, Forest.childNamed?, withForest, hchildren]
          rfl
      have hfree : (t.content? a).below [name] = fun _ => none := funext fun q => by
        rw [Layer.below, List.singleton_append, Forest.content?_cons, hc, Option.bind_none]
      have hfill := h.filled.lift hadd.linked hadd.distinct hone
      rw [hempty] at hfill
      refine ⟨h.same_root, (hadd.trans ht hfill fun q => ?_).of_eq ?_,
        fun hn => h.nodup (Forest.childrenNodup_addChild ht hn ha rfl rfl), ?_⟩
      · by_cases hq : q = [name]
        · refine .inr ?_
          rw [hq]
          exact (Layer.shift_append [name] []).trans (Layer.missing_of_some (by simp [Layer.single]))
        · exact .inl (Layer.single_shift_of_ne hq)
      · rw [Layer.missing_cons (by simp), hfree, Layer.missing_of_free]
        exact Layer.or_shift
      · exact (h.filled.route hone).trans h.route

/-! ## A subtree below the end of the path -/

variable {o u : Tree} {q s : List String} {id x : Nat} {r : Tree × NodeId} {name : String}

theorem not_snoc_prefix (q : List String) (name : String) : ¬ q ++ [name] <+: q := fun h => by
  have hlen := h.length_le
  rw [List.length_append, List.length_singleton] at hlen
  omega

def graftAt (r : Tree × NodeId) (o : Tree) (id : NodeId) : Tree := r.1.withForest (r.1.graft o.toForest id r.2).1

variable (h : Ensured t.root q t r) (ht : t.Rooted) (hs : t.SiblingsDiffer) (ho : o.WellFormed)
  (hos : o.DistinctBelow id) (hname : (o.node id).name = name) (hfree : t.contents (q ++ [name]) = none)

include h in
theorem Ensured.contents (s : List String) :
    r.1.contents s = if s <+: q ∧ t.contents s = none then some .placeholder else t.contents s := by
  rw [Tree.contents, h.same_root, h.filled.content]
  split
  · rename_i hmissing
    rw [Layer.fill_of_some (Layer.missing_eq_some.2 ⟨hmissing, rfl⟩), show t.content? t.root s = none from hmissing.2]
    rfl
  · rename_i hmissing
    exact Layer.fill_of_none (if_neg hmissing)

include h ht ho hfree hos hname

theorem Ensured.filled_graftAt : (t.ChildrenNodup → (graftAt r o id).ChildrenNodup) ∧
    Forest.Filled t.root ((o.content? id).shift (q ++ [name])) r.1.toForest (graftAt r o id).toForest := by
  have hroute := h.route
  have hx := hroute.lt_count (Nat.lt_of_lt_of_le ht.root_lt_count h.filled.count_le)
  have hcopy := Forest.copied_graft (s := id) ho.linked h.filled.linked hx
  have hnone : r.1.childNamed? r.2 (o.node id).name = none := by
    rw [Forest.childNamed?_eq_none_iff, hname, ← Forest.content?_append h.filled.linked h.filled.distinct hroute,
      h.filled.content, Layer.fill_of_none (if_neg fun hp => not_snoc_prefix q name hp.1)]
    exact hfree
  have hfill := (hcopy.filled ho.children_nodup (h.filled.distinct.mono ⟨_, hroute⟩) hos hnone).lift h.filled.linked
    h.filled.distinct hroute
  rw [hname, Layer.shift_shift] at hfill
  exact ⟨fun hn => hcopy.nodup (h.nodup hn), hfill⟩

theorem Ensured.grown_graftAt : Forest.Grown t.root t.toForest (graftAt r o id).toForest :=
  h.filled.toGrown.trans ht.linked (h.filled_graftAt ht ho hos hname hfree).2.toGrown

theorem Ensured.rooted_graftAt : (graftAt r o id).Rooted ∧ (graftAt r o id).SiblingsDiffer := by
  obtain ⟨-, hfill⟩ := h.filled_graftAt ht ho hos hname hfree
  have hgrown := h.grown_graftAt ht ho hos hname hfree
  have hroot : (graftAt r o id).root = t.root := h.same_root
  refine ⟨⟨hfill.linked, ?_, ?_⟩, ?_⟩
  · rw [hroot, hgrown.parent? ht.root_lt_count, ht.root_top]
  · rw [hroot]
    exact Nat.lt_of_lt_of_le ht.root_lt_count hgrown.count_le
  · unfold SiblingsDiffer
    rw [hroot]
    exact hfill.distinct

/-- **What a tree holds with a subtree copied into it**: placeholders on the way, the copy, and what it held. -/
theorem Ensured.contents_graftAt (s : List String) : (graftAt r o id).contents s =
    if q ++ [name] <+: s then o.content? id (s.drop (q ++ [name]).length)
    else if s <+: q ∧ t.contents s = none then some .placeholder else t.contents s := by
  rw [Tree.contents, show (graftAt r o id).root = t.root from h.same_root,
    (h.filled_graftAt ht ho hos hname hfree).2.content, ← h.same_root]
  split
  · rename_i hpre
    obtain ⟨s, rfl⟩ := hpre
    have hold : r.1.contents (q ++ [name] ++ s) = none := by
      have hnone : t.contents (q ++ [name] ++ s) = none := by
        rw [Tree.contents, Forest.content?, Option.map_eq_none_iff] at hfree ⊢
        rw [Forest.descend?_append, hfree, Option.bind_none]
      rw [h.contents, hnone, if_neg fun hp => not_snoc_prefix q name ((List.prefix_append _ s).trans hp.1)]
    rw [List.drop_left]
    cases hc : o.content? id s with
    | none =>
      rw [Layer.fill_of_none (by rw [Layer.shift_append, hc])]
      exact hold
    | some c =>
      rw [Layer.fill_of_some (by rw [Layer.shift_append, hc]), show r.1.content? r.1.root _ = none from hold]
      rfl
  · rename_i hpre
    rw [Layer.fill_of_none (Layer.shift_of_not_below hpre)]
    exact h.contents s

end Tree
end SignalCatalog
