import Mathlib.Data.List.Infix
import SignalCatalog.Proofs.Expand.Addressable
import SignalCatalog.Proofs.Merge.Rooted
/-!
# Names and nodes

Where siblings differ and no name has a dot, nodes and their qualified names are in one-to-one correspondence.  A name
that is asked for in vain passes some nodes that are there and then some that are missing; these are made, one below the
other, and are the only new ones.
-/
namespace SignalCatalog

namespace QualifiedName

variable {name first : String} {rest : List String}

theorem ancestors_concat (h : segments name = first :: rest) :
    (ancestors name).reverse ++ [name] = rest.inits.map fun q => ofSegments (first :: q) := by
  induction name using parent_induction generalizing rest with
  | _ name ih =>
    cases hparent : parent? name with
    | none =>
      rw [segments_of_not_isQualified (parent?_eq_none_iff.1 hparent)] at h
      obtain ⟨rfl, rfl⟩ := List.cons.inj h
      rw [ancestors_of_parent?_eq_none hparent]
      have hname : ofSegments [name] = name := by
        rw [← segments_of_not_isQualified (parent?_eq_none_iff.1 hparent), ofSegments_segments]
      exact congrArg ([·]) hname.symm
    | some p =>
      have hsegments := segments_of_parent? hparent
      cases hp : segments p with
      | nil => exact absurd hp (segments_ne_nil p)
      | cons first' rest' =>
        rw [hsegments, hp, List.cons_append] at h
        obtain ⟨rfl, rfl⟩ := List.cons.inj h
        have hname : ofSegments (first' :: (rest' ++ [last name])) = name := by
          rw [← List.cons_append, ← hp, ← hsegments, ofSegments_segments]
        rw [ancestors_of_parent? hparent, List.reverse_cons, ih p hparent hp, List.inits_append, List.map_append]
        exact congrArg (_ ++ [·]) hname.symm

end QualifiedName

namespace Tree

open QualifiedName (segments)

variable {t : Tree} {a c x : Nat} {names : List String} {name s : String}

/-- **What following a path adds to a tree**: the nodes that were there only get new children behind their old ones, and
the new ones are placeholders at the missing beginnings of the path, in their order. -/
structure Paved (a : Nat) (names : List String) (t u : Tree) : Prop where
  count_le : t.count ≤ u.count
  kept : ∀ x < t.count, ∃ kids, u.node x = { t.node x with children := t.children x ++ kids } ∧ ∀ c ∈ kids, t.count ≤ c
  placeholder : ∀ x < u.count, t.count ≤ x →
    u.node x = { Node.placeholder (u.node x).name with parent := u.parent? x, children := u.children x }
  placed : List.Forall₂ (u.Route a) (names.inits.filter fun q => (t.descend? a q).isNone)
    (List.range' t.count (u.count - t.count))

theorem inits_eq_cons (names : List String) : names.inits = [] :: names.inits.tail := by cases names <;> rfl

theorem missing_of_leaf (h : t.children a = []) :
    (names.inits.filter fun q => (t.descend? a q).isNone) = names.inits.tail := by
  have hnone (name : String) : t.childNamed? a name = none := by rw [Forest.childNamed?, h, List.find?_nil]
  cases names with
  | nil => rfl
  | cons name names =>
    rw [List.inits_cons, List.filter_cons_of_neg (by simp [Forest.descend?]), List.tail_cons, List.filter_eq_self]
    simp [Forest.descend?, hnone]

theorem missing_cons : ((name :: names).inits.filter fun q => (t.descend? a q).isNone) =
    (names.inits.filter fun q => ((t.childNamed? a name).bind fun c => t.descend? c q).isNone).map (name :: ·) := by
  rw [List.inits_cons, List.filter_cons_of_neg (by simp [Forest.descend?]), List.filter_map]
  rfl

theorem Paved.cons {u : Tree} (h : Paved c names t u) (hc : t.childNamed? a name = some c)
    (hroute : u.Route a [name] c) :
    Paved a (name :: names) t u where
  count_le := h.count_le
  kept := h.kept
  placeholder := h.placeholder
  placed := by
    rw [missing_cons, hc, List.forall₂_map_left_iff]
    exact h.placed.imp fun q x hq => hroute.trans hq

/-- **A node on the way that is made**, and all that follow below it. -/
theorem Paved.made {u : Tree} (h : Paved t.count names (t.withForest (t.addChild a (.placeholder name)).1) u)
    (ha : a < t.count) (hc : t.childNamed? a name = none) (hroute : u.Route a [name] t.count) :
    Paved a (name :: names) t u := by
  have hnode (x : Nat) : (t.withForest (t.addChild a (.placeholder name)).1).node x = _ :=
    Forest.node_addChild (f := t.toForest) ha rfl rfl
  have hcount : (t.withForest (t.addChild a (.placeholder name)).1).count = t.count + 1 := Forest.count_addChild _
  obtain ⟨hle, hkept, hplaceholder, hplaced⟩ := h
  rw [hcount] at hle hkept hplaceholder hplaced
  refine ⟨by omega, fun x hx => ?_, fun x hx hx' => ?_, ?_⟩
  · obtain ⟨kids, hkept, hkids⟩ := hkept x (by omega)
    rw [Forest.children, hnode, if_neg (by omega)] at hkept
    have hkids : ∀ c ∈ kids, t.count ≤ c := fun c hc => Nat.le_of_succ_le (hkids c hc)
    by_cases hxa : x = a
    · rw [if_pos hxa] at hkept
      refine ⟨t.count :: kids, ?_, List.forall_mem_cons.2 ⟨Nat.le_refl _, hkids⟩⟩
      rw [hkept, List.append_assoc, hxa]
      rfl
    · rw [if_neg hxa] at hkept
      exact ⟨kids, hkept, hkids⟩
  · rcases Nat.eq_or_lt_of_le hx' with rfl | hlt
    · obtain ⟨kids, hkept, -⟩ := hkept t.count (by omega)
      rw [Forest.children, hnode, if_pos rfl] at hkept
      rw [Forest.parent?, Forest.children, hkept]
      rfl
    · exact hplaceholder x hx hlt
  · -- the new node is a leaf yet, so all longer beginnings of the path are missing as well
    have hleaf : (t.withForest (t.addChild a (.placeholder name)).1).children t.count = [] := by
      rw [Forest.children, hnode, if_pos rfl]
      rfl
    have hall : ∀ q : List String, ((t.childNamed? a name).bind fun c => t.descend? c q).isNone = true :=
      fun q => by rw [hc]; rfl
    rw [missing_of_leaf hleaf] at hplaced
    rw [missing_cons, List.filter_eq_self.2 fun q _ => hall q, inits_eq_cons, List.map_cons,
      show u.count - t.count = (u.count - (t.count + 1)) + 1 by omega, List.range'_succ]
    exact .cons hroute (List.forall₂_map_left_iff.2 (hplaced.imp fun q x hq => hroute.trans hq))

theorem paved_ensureBelow (names : List String) (ht : t.Linked) (ha : a < t.count) :
    Paved a names t (t.ensureBelow a names).1 := by
  induction names generalizing t a with
  | nil =>
    refine ⟨Nat.le_refl _, fun x _ => ⟨[], by rw [List.append_nil]; rfl, by simp⟩,
      fun x hx hx' => absurd hx (Nat.not_lt.2 hx'), ?_⟩
    rw [ensureBelow, Nat.sub_self]
    exact .nil
  | cons name names ih =>
    rw [ensureBelow]
    cases hc : t.childNamed? a name with
    | some c =>
      obtain ⟨hparent, rfl⟩ := ht.mem_childNamed? hc
      have hclt := Forest.lt_count_of_parent? hparent
      exact (ih ht hclt).cons hc ((grown_ensureBelow names ht hclt).1.route (.single hparent))
    | none =>
      have hadd := Forest.linked_addChild (n := .placeholder name) ht ha rfl rfl
      have hlt : t.count < (t.withForest (t.addChild a (.placeholder name)).1).count :=
        Nat.lt_of_lt_of_eq (Nat.lt_succ_self _) (Forest.count_addChild _).symm
      have hgrown := (grown_ensureBelow (t := t.withForest (t.addChild a (.placeholder name)).1) names hadd hlt).1
      exact (ih (t := t.withForest (t.addChild a (.placeholder name)).1) hadd hlt).made ha hc
        (hgrown.route (Forest.route_addChild ha rfl rfl))

theorem Paved.name_mem {u : Tree} (h : Paved a names t u) (ha : a < t.count) (hx : t.count ≤ x) (hx' : x < u.count) :
    (u.node x).name ∈ names := by
  obtain ⟨q, hq, hroute⟩ := exists_of_mem_right h.placed (List.mem_range'_1.2 ⟨hx, by omega⟩)
  have hpre := (List.mem_inits _ _).1 (List.mem_filter.1 hq).1
  cases hroute with
  | here => exact absurd ha (Nat.not_lt.2 hx)
  | down => exact hpre.subset (by simp)

theorem ensureBelow_of_descend? (h : t.descend? a names = some x) : t.ensureBelow a names = (t, x) := by
  induction names generalizing a with
  | nil =>
    cases h
    rfl
  | cons name names ih =>
    rw [Forest.descend?, Option.bind_eq_some_iff] at h
    obtain ⟨c, hc, hx⟩ := h
    rw [ensureBelow, hc]
    exact ih hx

/-! ## Asking for a name -/

/-- **What a tree is once the node of a name was asked for.** -/
structure Provided (t : Tree) (s : String) (u : Tree) (id : NodeId) : Prop where
  wellFormed : u.WellFormed
  siblingsDiffer : u.SiblingsDiffer
  dotFree : ∀ x ∈ u.preorder, '.' ∉ (u.node x).name.toList
  same_root : u.root = t.root
  reached : id ∈ u.preorder
  named : u.fqn id = s
  kept : ∀ x < t.count, ∃ kids, u.node x = { t.node x with children := t.children x ++ kids } ∧ ∀ c ∈ kids, t.count ≤ c
  attached : ∀ x < t.count, (x ∈ u.preorder ↔ x ∈ t.preorder) ∧ (x ∈ t.preorder → u.fqn x = t.fqn x)
  count_le : t.count ≤ u.count
  fresh : ∀ x < u.count, t.count ≤ x → x ∈ u.preorder ∧
    u.node x = { Node.placeholder (u.node x).name with parent := u.parent? x, children := u.children x }
  /-- The new nodes stand at those beginnings of the name that had no node, from the shortest on. -/
  added : (List.range' t.count (u.count - t.count)).map u.fqn =
    ((QualifiedName.ancestors s).reverse ++ [s]).filter fun p => (t.find? p).isNone
  again : u.ensure s = (u, some id)

theorem segments_of_first (h : QualifiedName.first s = t.rootName) : segments s = t.rootName :: (segments s).tail := by
  rw [← h, QualifiedName.first, List.cons_head_tail]

theorem missing_of_segments {rest : List String} (h : segments s = t.rootName :: rest) :
    ((QualifiedName.ancestors s).reverse ++ [s]).filter (fun p => (t.find? p).isNone) =
      (rest.inits.filter fun q => (t.descend? t.root q).isNone).map fun q =>
        QualifiedName.ofSegments (t.rootName :: q) := by
  rw [QualifiedName.ancestors_concat h, List.filter_map]
  refine congrArg (List.map _) (List.filter_congr fun q hq => ?_)
  have hpre : t.rootName :: q <+: segments s := h ▸ List.cons_prefix_cons.2 ⟨rfl, (List.mem_inits _ _).1 hq⟩
  have hdot : QualifiedName.DotFree (t.rootName :: q) := fun n hn => QualifiedName.dotFree_segments s n (hpre.subset hn)
  rw [Function.comp_apply, find?_of_segments (QualifiedName.segments_ofSegments hdot (by simp))]

theorem provided_ensureBelow {rest : List String} (ht : t.WellFormed) (hs : t.SiblingsDiffer)
    (hdot : ∀ x ∈ t.preorder, '.' ∉ (t.node x).name.toList) (h : segments s = t.rootName :: rest) :
    t.Provided s (t.ensureBelow t.root rest).1 (t.ensureBelow t.root rest).2 := by
  have hgrown := (grown_ensureBelow rest ht.linked ht.root_lt_count).1
  have hpaved := paved_ensureBelow rest ht.linked ht.root_lt_count
  have hensured : Ensured t.root rest t (t.ensureBelow t.root rest) := ensured_ensureBelow ht.linked hs ht.root_lt_count
  obtain ⟨hroot, hfilled, hnodup, hroute⟩ := hensured
  generalize (t.ensureBelow t.root rest).1 = u at *
  generalize (t.ensureBelow t.root rest).2 = id at *
  have hu := ht.toRooted.grown hgrown hroot
  have hname : u.rootName = t.rootName := by rw [rootName, hroot, hgrown.name ht.root_lt_count, rootName]
  have hdistinct : u.SiblingsDiffer := by
    unfold SiblingsDiffer
    rw [hroot]
    exact hfilled.distinct
  have hfqn : ∀ {q : List String} {x : Nat}, u.Route t.root q x →
      u.fqn x = QualifiedName.ofSegments (t.rootName :: q) := fun hq => by
    rw [Forest.fqn_of_route hgrown.linked (hroot ▸ hu.root_top) hq, hgrown.name ht.root_lt_count, rootName]
  have hmem : ∀ {x : Nat}, x ∈ u.preorder ↔ u.Below t.root x := hroot ▸ mem_preorder hgrown.linked
  exact {
    wellFormed := ⟨hu, hnodup ht.children_nodup⟩
    siblingsDiffer := hdistinct
    dotFree := fun x hx => by
      by_cases hxt : x < t.count
      · rw [hgrown.name hxt]
        exact hdot x ((mem_preorder ht.linked).2 ((hgrown.below_iff ht.linked hxt).1 (hmem.1 hx)))
      · have hnamed := hpaved.name_mem ht.root_lt_count (Nat.le_of_not_lt hxt) (hu.lt_count hx)
        exact QualifiedName.dotFree_segments s _ (h ▸ List.mem_cons_of_mem _ hnamed)
    same_root := hroot
    reached := hmem.2 ⟨_, hroute⟩
    named := by rw [hfqn hroute, ← h, QualifiedName.ofSegments_segments]
    kept := hpaved.kept
    attached := fun x hx => by
      rw [hmem, mem_preorder ht.linked]
      refine ⟨hgrown.below_iff ht.linked hx, ?_⟩
      rintro ⟨q, hq⟩
      rw [hfqn (hgrown.route hq), Forest.fqn_of_route ht.linked ht.root_top hq, rootName]
    count_le := hgrown.count_le
    fresh := fun x hx hx' => ⟨hmem.2 (hgrown.fresh hx' hx), hpaved.placeholder x hx hx'⟩
    added := by
      rw [missing_of_segments h, ← List.forall₂_eq_eq_eq, List.forall₂_map_left_iff, List.forall₂_map_right_iff]
      exact (hpaved.placed.imp fun q x hq => hfqn hq).flip
    again := by
      have hfound := (hgrown.linked.descend?_eq_some hdistinct).2 (hroot ▸ hroute)
      rw [ensure_of_segments (u := u) (hname.symm ▸ h), ensureBelow_of_descend? hfound] }

/-- **Names and nodes are in one-to-one correspondence**, where siblings differ and no name has a dot.  Asking for the
node of a name gives one just when the name begins with that of the root: what was missing on the way is made, nothing
else is touched, and to ask again gives the same. -/
theorem paths_exact (ht : t.WellFormed) (hs : t.SiblingsDiffer)
    (hdot : ∀ x ∈ t.preorder, '.' ∉ (t.node x).name.toList) :
    (∀ s x, t.find? s = some x ↔ x ∈ t.preorder ∧ t.fqn x = s) ∧
    ∀ s, ((t.ensure s).2.isSome = true ↔ QualifiedName.first s = t.rootName) ∧
      (QualifiedName.first s ≠ t.rootName → t.ensure s = (t, none)) ∧
      ∀ u id, t.ensure s = (u, some id) → t.Provided s u id := by
  refine ⟨fun s x => ⟨fun hfind => ?_, ?_⟩, fun s => ?_⟩
  · by_cases hfirst : QualifiedName.first s = t.rootName
    · have hrest := segments_of_first hfirst
      rw [find?_eq_some ht.linked hs hrest] at hfind
      refine ⟨(mem_preorder ht.linked).2 ⟨_, hfind⟩, ?_⟩
      rw [Forest.fqn_of_route ht.linked ht.root_top hfind, show (t.node t.root).name = t.rootName from rfl, ← hrest,
        QualifiedName.ofSegments_segments]
    · rw [find?_of_first_ne hfirst] at hfind
      cases hfind
  · rintro ⟨hx, rfl⟩
    exact ((addressable_iff ht hs).2 hdot).found x hx
  · by_cases hfirst : QualifiedName.first s = t.rootName
    · have hrest := segments_of_first hfirst
      rw [ensure_of_segments hrest]
      refine ⟨iff_of_true rfl hfirst, fun hne => absurd hfirst hne, fun u id h => ?_⟩
      cases h
      exact provided_ensureBelow ht hs hdot hrest
    · rw [ensure_of_first_ne hfirst]
      exact ⟨iff_of_false (by simp) hfirst, fun _ => rfl, fun u id h => nomatch h⟩

/-- A root with one branch. -/
def cabinOnly : Tree where
  nodes := #[{ name := "Vehicle", payload := .branch "vehicle", children := [1] },
    { name := "Cabin", payload := .branch "cabin", parent := some 0 }]
  root := 0

/-- Empty segments are names like others. -/
theorem paths_exact_cabinOnly : (∀ s x, cabinOnly.find? s = some x ↔ x ∈ [0, 1] ∧ cabinOnly.fqn x = s) ∧
    ∃ u, cabinOnly.ensure "Vehicle.Cabin..Door" = (u, some 3) ∧ cabinOnly.Provided "Vehicle.Cabin..Door" u 3 ∧
      [u.fqn 2, u.fqn 3] = ["Vehicle.Cabin.", "Vehicle.Cabin..Door"] := by
  have horder : cabinOnly.isOrdered = true := by decide
  have hthird : (cabinOnly.ensure "Vehicle.Cabin..Door").2 = some 3 := by decide
  obtain ⟨hfind, hensure⟩ :=
    paths_exact (wellFormed_of_isOrdered horder) (siblingsDiffer_of_isOrdered horder) (by decide)
  exact ⟨hfind, _, Prod.ext rfl hthird, (hensure _).2.2 _ _ (Prod.ext rfl hthird), by decide⟩

end Tree
end SignalCatalog
