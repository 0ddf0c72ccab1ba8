import SignalCatalog.Proofs.Expand.Merging
import SignalCatalog.Proofs.Expand.Rows
import SignalCatalog.Proofs.Expand.Sketched
import SignalCatalog.Proofs.Forest.Check
/-!
# The order of children in an expanded branch

Instances are put first among their siblings row by row, and templates wherever they are merged into a node.  What was
there before keeps its order behind them.
-/
namespace SignalCatalog

namespace Forest

theorem Route.name_eq {f g : Forest} {a b x y : Nat} {r : List String} (h : f.Route a r x)
    (h' : g.Route b ((f.node a).name :: r) y) :
    (g.node y).name = (f.node x).name := by
  cases h with
  | here =>
    obtain ⟨-, -, -, hname⟩ := Route.of_snoc (q := []) h'
    exact hname
  | @down q p c hp hc =>
    obtain ⟨-, -, -, hname⟩ := Route.of_snoc (q := (f.node a).name :: q) h'
    exact hname

end Forest

namespace Level

variable {levels Ps : List (List String)} {names q r : List String} {k : Nat}

theorem mem_rows (hq : q ∈ Ps) (hr : List.Forall₂ (· ∈ ·) r (levels.take r.length))
    (hnames : levels[r.length]? = some names) :
    (q ++ r, names) ∈ rows levels Ps := by
  induction levels generalizing Ps q r with
  | nil => cases hnames
  | cons first levels ih =>
    rw [rows, List.mem_append]
    cases r with
    | nil =>
      cases hnames
      exact .inl (List.mem_map.2 ⟨q, hq, by rw [List.append_nil]⟩)
    | cons name r =>
      rw [List.length_cons, List.take_succ_cons, List.forall₂_cons] at hr
      have hrest := ih (mem_frontier.2 ⟨q, hq, name, hr.1, rfl⟩) hr.2 hnames
      rw [List.append_assoc] at hrest
      exact .inr hrest

theorem mem_rows_of_isInstance (hq : q = [] ∨ IsInstance levels q) (hnames : levels[q.length]? = some names) :
    (q, names) ∈ rows levels [[]] := by
  have hinst : List.Forall₂ (· ∈ ·) q (levels.take q.length) := by
    rcases hq with rfl | hq
    · exact .nil
    · exact hq.2
  have hmem := mem_rows (List.mem_singleton_self []) hinst hnames
  rwa [List.nil_append] at hmem

theorem not_innermost_of_row {row : Row} (h : row ∈ rows levels [[]]) (hq : IsInnermost levels q) :
    row.1 ≠ q ++ r := fun heq => by
  have hlt := (List.getElem?_eq_some_iff.1 (getElem?_of_row h)).1
  have hlen := congrArg List.length heq
  rw [List.length_append, hq.length_eq] at hlen
  omega

end Level

namespace Tree

open Level (Row)

variable {t t' u v : Tree} {duty : NodeId → Duty} {n p c k : Nat} {proto : Payload} {name : String}
  {names q : List String} {levels Ps : List (List String)} {rows rows' : List Row} {ids ps : List NodeId}

/-! ## Instances first -/

/-- **Instances made below one parent**, which is not yet in order. -/
structure Sown (p : Nat) (names : List String) (ids : List NodeId) (t u : Tree) : Prop where
  grown : Forest.Grown p t.toForest u.toForest
  stand : List.Forall₂ (fun name c => u.parent? c = some p ∧ (u.node c).name = name) names ids
  own : ∃ added ⊆ ids, u.children p = t.children p ++ added
  other : ∀ y, y ≠ p → u.children y = t.children y

theorem instanceNode_sown (ht : t.Linked) (hp : p < t.count) (hon : (instanceNode proto p name).on t = (.ok c, u)) :
    Sown p [name] [c] t u := by
  have hgrown := (instanceNode_instanced ht hp hon).grown
  rw [instanceNode_on] at hon
  split at hon
  · cases hon
    have hchildren (y : Nat) : (t.addChild p { name, payload := proto }).1.children y =
        if y = p then t.children p ++ [t.count] else t.children y :=
      Forest.children_addChild hp rfl rfl
    refine ⟨hgrown, .cons ⟨?_, ?_⟩ .nil, ⟨[t.count], List.Subset.refl _, (hchildren p).trans (if_pos rfl)⟩,
      fun y hy => (hchildren y).trans (if_neg hy)⟩
    · exact (Forest.parent?_addChild hp rfl rfl).trans (if_pos rfl)
    · exact (Forest.name_addChild hp rfl rfl).trans (by rw [if_pos rfl])
  · rename_i c' hc
    split at hon
    · cases hon
      obtain ⟨hparent, hname⟩ := ht.mem_childNamed? hc
      have hlt := Forest.lt_count_of_parent? hparent
      have hchildren := Forest.children_declareIf t.toForest c proto
      refine ⟨hgrown, .cons ⟨?_, ?_⟩ .nil, ⟨[], List.nil_subset _, (hchildren p).trans (List.append_nil _).symm⟩,
        fun y _ => hchildren y⟩
      · exact (hgrown.parent? hlt).trans hparent
      · exact (hgrown.name hlt).trans hname
    · cases hon

theorem instanceRow_sown (ht : t.Linked) (hp : p < t.count) (hon : (instanceRow proto p names).on t = (.ok ids, u)) :
    Sown p names ids t u := by
  induction names generalizing t ids with
  | nil =>
    cases hon
    exact ⟨.refl ht, .nil, ⟨[], List.nil_subset _, (List.append_nil _).symm⟩, fun _ _ => rfl⟩
  | cons name names ih =>
    obtain ⟨c, t₁, hfirst, hon⟩ := on_bind_eq_ok hon
    obtain ⟨rest, t₂, hrest, hon⟩ := on_bind_eq_ok hon
    cases hon
    have hone := instanceNode_sown ht hp hfirst
    have hall := ih hone.grown.linked (Nat.lt_of_lt_of_le hp hone.grown.count_le) hrest
    obtain ⟨hparent, hname⟩ := (List.forall₂_cons.1 hone.stand).1
    obtain ⟨added, hadded, hown⟩ := hone.own
    obtain ⟨added', hadded', hown'⟩ := hall.own
    have hlt := Forest.lt_count_of_parent? hparent
    refine ⟨hone.grown.trans ht hall.grown, .cons ⟨?_, ?_⟩ hall.stand, ⟨added ++ added', ?_, ?_⟩,
      fun y hy => (hall.other y hy).trans (hone.other y hy)⟩
    · rw [hall.grown.parent? hlt, hparent]
    · rw [hall.grown.name hlt, hname]
    · exact List.append_subset.2 ⟨fun x hx => by simp [List.mem_singleton.1 (hadded hx)],
        fun x hx => List.mem_cons_of_mem _ (hadded' hx)⟩
    · rw [hown', hown, List.append_assoc]

/-- **Rows of instances made**, each first among the children of its parent; no other node has got children. -/
structure Led (n : Nat) (rows : List Row) (t u : Tree) : Prop where
  planted : Planted n t u
  first : ∀ row ∈ rows, ∃ x ids, u.descend? n row.1 = some x ∧ ids.map (fun c => (u.node c).name) = row.2 ∧
    u.children x = Forest.front ids (t.children x)
  other : ∀ y, (∀ row ∈ rows, u.descend? n row.1 ≠ some y) → u.children y = t.children y

namespace Led

theorem nil (h : t.Fertile duty n) : Led n [] t t where
  planted := ⟨.refl h.linked, h.tidy, .refl, rfl⟩
  first := by simp
  other := fun _ _ => rfl

theorem append (hA : Led n rows t u) (ht : t.Linked) (hB : Led n rows' u v)
    (hdiff : ∀ a ∈ rows, ∀ b ∈ rows', a.1 ≠ b.1) :
    Led n (rows ++ rows') t v := by
  -- a node is the parent of one row at most
  have hside {a b : Row} (ha : a ∈ rows) (hb : b ∈ rows') {x : Nat} (hx : u.descend? n a.1 = some x) :
      v.descend? n b.1 ≠ some x := fun hx' =>
    have hroute := hB.planted.grown.linked.route_of_descend? (hB.planted.keeps.descend? hx)
    hdiff a ha b hb (hB.planted.grown.linked.route_unique hroute (hB.planted.grown.linked.route_of_descend? hx'))
  refine ⟨hA.planted.trans ht hB.planted, fun row hrow => ?_, fun y hy => ?_⟩
  · rcases List.mem_append.1 hrow with hrow | hrow
    · obtain ⟨x, ids, hx, hnames, hchildren⟩ := hA.first row hrow
      refine ⟨x, ids, hB.planted.keeps.descend? hx, ?_, ?_⟩
      · rw [← hnames]
        refine List.map_congr_left fun c hc => hB.planted.grown.name ?_
        have hmem : c ∈ u.children x := hchildren ▸ List.mem_append_left _ hc
        exact Forest.lt_count_of_parent? (hA.planted.grown.linked.mem_children.1 hmem)
      · rw [hB.other x fun b hb => hside hrow hb hx, hchildren]
    · obtain ⟨x, ids, hx, hnames, hchildren⟩ := hB.first row hrow
      exact ⟨x, ids, hx, hnames, by rw [hchildren, hA.other x fun a ha hxa => hside ha hrow hxa hx]⟩
  · rw [hB.other y fun b hb => hy b (List.mem_append_right _ hb),
      hA.other y fun a ha hya => hy a (List.mem_append_left _ ha) (hB.planted.keeps.descend? hya)]

end Led

theorem Traced.planted {m : Expanding (List NodeId)} {change : Nat → Sketch → Option Sketch} {ends : List (List String)}
    (h : Traced duty n t change ends (m.on t)) (hon : m.on t = (.ok ids, u)) :
    Planted n t u ∧ u.StandAt n ends ids := by
  rw [hon] at h
  cases h with
  | ok hplanted hstand _ => exact ⟨hplanted, hstand⟩

theorem instanceRow_led (h : t.Fertile duty n) (hproto : proto.kind = .branch) (hq : t.descend? n q = some p)
    (hon : (instanceRow proto p names >>= fun ids => change (fun f => f.reorder p ids) >>= fun _ => pure ids).on t =
      (.ok ids, u)) :
    Led n [(q, names)] t u ∧ u.StandAt n (names.map fun name => q ++ [name]) ids := by
  obtain ⟨hplanted, hstand⟩ := (instanceRow_traced names h hproto hq).planted hon
  obtain ⟨row, t₁, hrow, hon⟩ := on_bind_eq_ok hon
  rw [on_change_bind] at hon
  cases hon
  have hsown := instanceRow_sown h.linked ((h.linked.route_of_descend? hq).lt_count h.lt_count) hrow
  have hmem : ids ⊆ t₁.children p := fun c hc => by
    obtain ⟨name, -, hparent, -⟩ := exists_of_mem_right hsown.stand hc
    exact hsown.grown.linked.mem_children.2 hparent
  obtain ⟨added, hadded, hown⟩ := hsown.own
  have hself := hplanted.keeps.descend? hq
  refine ⟨⟨hplanted, List.forall_mem_singleton.2 ⟨p, ids, hself, ?_, ?_⟩, fun y hy => ?_⟩, hstand⟩
  · have hnames : ids.map (fun c => (t₁.node c).name) = names :=
      List.forall₂_eq_eq_eq ▸ List.forall₂_map_left_iff.2 (hsown.stand.imp fun _ _ hc => hc.2).flip
    rw [← hnames]
    exact List.map_congr_left fun c _ => (Forest.sameShape_reorder ids).name c
  · exact (Forest.children_reorder hmem).trans (by rw [hown, Forest.front_append hadded])
  · have hne : y ≠ p := fun heq => hy _ List.mem_cons_self (heq ▸ hself)
    exact (Forest.children_reorder_other hne).trans (hsown.other y hne)

theorem instanceLevel_led (h : t.Fertile duty n) (hproto : proto.kind = .branch)
    (hps : t.StandAt n Ps ps) (hPs : Ps.Nodup) (hon : (instanceLevel proto names ps).on t = (.ok ids, u)) :
    Led n (Ps.map fun q => (q, names)) t u ∧ u.StandAt n (Level.frontier names Ps) ids := by
  refine ⟨?_, ((instanceLevel_traced h hproto hps).planted hon).2⟩
  induction Ps generalizing t ps ids with
  | nil =>
    cases hps
    cases hon
    exact .nil h
  | cons q Ps ih =>
    obtain ⟨p, ps, hq, hrest, rfl⟩ := List.forall₂_cons_left_iff.1 hps
    obtain ⟨hnew, hPs⟩ := List.nodup_cons.1 hPs
    rw [instanceLevel_cons] at hon
    obtain ⟨row, t₁, hrow, hon⟩ := on_bind_eq_ok hon
    obtain ⟨rest, t₂, hlevel, hon⟩ := on_bind_eq_ok hon
    cases hon
    have hone := (instanceRow_led h hproto hq hrow).1
    refine hone.append h.linked (ih (h.planted hone.planted) (StandAt.keep hrest hone.planted.keeps) hPs
      hlevel) fun a ha b hb heq => ?_
    obtain ⟨q', hq', rfl⟩ := List.mem_map.1 hb
    rw [List.mem_singleton.1 ha] at heq
    have hqq' : q = q' := heq
    exact hnew (hqq' ▸ hq')

/-- **All levels**, from a frontier inwards. -/
theorem instanceLevels_led (h : t.Fertile duty n) (hproto : levels ≠ [] → proto.kind = .branch)
    (hps : t.StandAt n Ps ps) (hPs : Ps.Nodup) (hlen : ∀ q ∈ Ps, q.length = k) (hdup : ∀ names ∈ levels, names.Nodup)
    (hon : (instanceLevels proto levels ps).on t = (.ok ids, u)) :
    Led n (Level.rows levels Ps) t u := by
  induction levels generalizing t Ps ps k with
  | nil =>
    cases hon
    exact .nil h
  | cons names levels ih =>
    obtain ⟨hnames, hdup⟩ := List.forall_mem_cons.1 hdup
    obtain ⟨row, t₁, hlevel, hon⟩ := on_bind_eq_ok hon
    obtain ⟨hone, hstand⟩ := instanceLevel_led h (hproto (by simp)) hps hPs hlevel
    have hlen' : ∀ q ∈ Level.frontier names Ps, q.length = k + 1 := Level.length_frontier hlen
    have hrest :=
      ih (h.planted hone.planted) (fun _ => hproto (by simp)) hstand (Level.nodup_frontier hnames hPs) hlen' hdup hon
    refine hone.append h.linked hrest fun a ha b hb heq => ?_
    obtain ⟨q, hq, rfl⟩ := List.mem_map.1 ha
    have hb := (Level.getElem?_of_mem_rows hlen' hb).1
    rw [← heq, hlen q hq] at hb
    omega

/-! ## The expanded branch -/

/-- **What a node lists** besides the template of a branch. -/
def remaining (t : Tree) (n : NodeId) (levels : List (List String)) (x : NodeId) : List NodeId :=
  (t.children x).filter fun c => !(t.template n levels).contains c

/-- **The order of children after a branch is expanded.**  `merged` gives the template nodes that were merged into a
node, or copied as it. -/
structure Arranged (t : Tree) (n : NodeId) (levels : List (List String)) (merged : NodeId → List NodeId) (t' : Tree) :
    Prop where
  /-- The branch and the instances above the last level: first the instances of the next level, in order, and then all
  others as before. -/
  rows : ∀ q names, q = [] ∨ Level.IsInstance levels q → levels[q.length]? = some names →
    ∃ x first, t'.descend? n q = some x ∧
    first.map (fun c => (t'.node c).name) = names ∧ t'.children x = Forest.front first (t.remaining n levels x)
  /-- The innermost instances: first the nodes that the template's nodes were merged into, in order, and then all others
  as before. -/
  innermost : ∀ q, Level.IsInnermost levels q → ∃ x first, t'.descend? n q = some x ∧
    List.Forall₂ (fun c z => c ∈ merged z) (t.template n levels) first ∧
    t'.children x = Forest.front first (t.remaining n levels x)
  /-- So for every node that template nodes were merged into: for each of them its children, and then all others
  as before. -/
  deeper : ∀ y, merged y ≠ [] →
    Forest.Rearranged (fun c z => c ∈ merged z) ((merged y).map t.children) (t.remaining n levels y) (t'.children y)
  /-- A template node is merged below an innermost instance at the path where it is below the branch. -/
  place : ∀ y, ∀ c ∈ merged y, ∃ q x s r, Level.IsInnermost levels q ∧ t'.descend? n q = some x ∧
    s ∈ t.template n levels ∧ t.Route s r c ∧ t'.Route x ((t.node s).name :: r) y
  named : ∀ y, ∀ c ∈ merged y, (t'.node y).name = (t.node c).name
  /-- Where siblings differ, a node takes in one template node at most. -/
  once : t.DistinctBelow n → ∀ y, (merged y).length ≤ 1

theorem StandAt.pairwise_apart (h : t.StandAt n Ps ps) (ht : t.Linked) (hPs : Ps.Nodup)
    (hlen : ∀ q ∈ Ps, q.length = k) : ps.Pairwise t.Apart := by
  induction h with
  | nil => exact .nil
  | @cons q p Ps ps hq hrest ih =>
    obtain ⟨hnew, hPs⟩ := List.nodup_cons.1 hPs
    obtain ⟨hk, hlen⟩ := List.forall_mem_cons.1 hlen
    refine .cons (fun p' hp' y hy hy' => hnew ?_) (ih hPs hlen)
    obtain ⟨q', hq', hp'⟩ := exists_of_mem_right hrest hp'
    obtain ⟨r, hr⟩ := hy
    obtain ⟨r', hr'⟩ := hy'
    have heq := ht.route_unique ((ht.route_of_descend? hq).trans hr) ((ht.route_of_descend? hp').trans hr')
    rw [(List.append_inj heq (by rw [hk, hlen q' hq'])).1]
    exact hq'

theorem sameBelow_withoutTemplate (ht : t.Linked) (hc : t.parent? c = some n) :
    Forest.SameBelow t.toForest (t.withoutTemplate n levels).toForest c := by
  rintro x ⟨q, hx⟩
  refine sameAt_withoutTemplate ht ?_
  rintro rfl
  exact ht.not_below_parent hc ⟨q, (cut_withoutTemplate ht _ levels).route ht hx⟩

theorem differing_template (ht : t.WellFormed) (hd : t.DistinctBelow n) :
    Forest.Differing t.toForest (t.template n levels) := by
  have hparent : ∀ c ∈ t.template n levels, t.parent? c = some n := fun _ hc => parent?_of_mem_template ht.linked hc
  refine ⟨fun c hc => hd.mono (Forest.Below.refl.down (hparent c hc)), ?_⟩
  exact ((ht.children_nodup n).sublist List.filter_sublist).imp_of_mem fun hc he hne hname =>
    hne (hd .refl (hparent _ hc) (hparent _ he) hname)

theorem StandAt.exists_innermost {leaves : List NodeId} {x : NodeId}
    (h : u.StandAt n (Level.leaves levels [[]]) leaves) (hx : x ∈ leaves) :
    ∃ q, Level.IsInnermost levels q ∧ u.descend? n q = some x := by
  obtain ⟨q, hq, hx⟩ := exists_of_mem_right h hx
  exact ⟨q, Level.mem_leaves_iff.1 hq, hx⟩

/-- **No row has its turn at an innermost instance or below one.** -/
theorem not_route_of_row {f : Forest} {row : Row} {r : List String} {x y : NodeId} (hf : f.Linked)
    (hrow : row ∈ Level.rows levels [[]]) (hq : Level.IsInnermost levels q) (hx : f.Route n q x) (hxy : f.Route x r y) :
    ¬ f.Route n row.1 y :=
  fun hy => Level.not_innermost_of_row hrow hq (hf.route_unique hy (hx.trans hxy))

/-- **Rows and templates in order** make up the order of the branch. -/
theorem Led.arranged {leaves : List NodeId} {g : Forest} {merged : NodeId → List NodeId} (ht : t.WellFormed)
    (hled : Led n (Level.rows levels [[]]) (t.withoutTemplate n levels) u)
    (hstand : u.StandAt n (Level.leaves levels [[]]) leaves)
    (hdealt : Forest.Dealt t.toForest n (t.template n levels) leaves merged u.toForest g)
    (hkeeps : Forest.Retains u.toForest g) :
    t.Arranged n levels merged (u.withForest g) := by
  have hu := hled.planted.grown.linked
  have hold {y : Nat} (hy : ∀ row ∈ Level.rows levels [[]], u.descend? n row.1 ≠ some y) :
      u.children y = t.remaining n levels y :=
    (hled.other y hy).trans (children_withoutTemplate ht.linked)
  refine ⟨fun q names hq hnames => ?_, fun q hq => ?_, fun y hy => ?_, fun y c hc => ?_, fun y c hc => ?_,
    fun hd => hdealt.once (differing_template ht hd)⟩
  · have hrow := Level.mem_rows_of_isInstance hq hnames
    obtain ⟨x, first, hx, hfirst, hchildren⟩ := hled.first _ hrow
    refine ⟨x, first, hkeeps.descend? hx, ?_, ?_⟩
    · refine (List.map_congr_left fun c hc => hdealt.name ?_).trans hfirst
      have hmem : c ∈ u.children x := hchildren ▸ List.mem_append_left _ hc
      exact Forest.lt_count_of_parent? (hu.mem_children.1 hmem)
    · have hroute := hu.route_of_descend? hx
      refine (hdealt.children_eq fun leaf hleaf hb => ?_).trans
        (hchildren.trans (by rw [children_withoutTemplate ht.linked]; rfl))
      obtain ⟨q', hq', hleaf⟩ := hstand.exists_innermost hleaf
      obtain ⟨r, hr⟩ := hb
      exact not_route_of_row hdealt.linked hrow hq' (hdealt.route (hu.route_of_descend? hleaf)) hr (hdealt.route hroute)
  · obtain ⟨x, hx, hq'⟩ := exists_of_mem_left hstand (Level.mem_leaves_iff.2 hq)
    obtain ⟨first, hfirst, hchildren⟩ := hdealt.lead x hx
    refine ⟨x, first, hkeeps.descend? hq', hfirst, hchildren.trans ?_⟩
    rw [hold fun row hmem hy => not_route_of_row hu hmem hq (hu.route_of_descend? hq') .here (hu.route_of_descend? hy)]
  · obtain ⟨c, hc⟩ := List.exists_mem_of_ne_nil _ hy
    obtain ⟨x, hx, s, hs, r, -, hr⟩ := hdealt.path y c hc
    obtain ⟨q, hq, hx⟩ := hstand.exists_innermost hx
    have hx := hdealt.route (hu.route_of_descend? hx)
    -- innermost instances are all equally deep, so none is below another
    have hleaf : y ∉ leaves := fun hmem => by
      obtain ⟨q', hq', hy'⟩ := hstand.exists_innermost hmem
      have hlen :=
        congrArg List.length (hdealt.linked.route_unique (hx.trans hr) (hdealt.route (hu.route_of_descend? hy')))
      rw [List.length_append, hq.length_eq, hq'.length_eq] at hlen
      simp at hlen
    rw [← hold fun row hmem hy => not_route_of_row hdealt.linked hmem hq hx hr (hdealt.route (hu.route_of_descend? hy))]
    exact hdealt.other y hleaf
  · obtain ⟨x, hx, s, hs, r, hr, hy⟩ := hdealt.path y c hc
    obtain ⟨q, hq, hx⟩ := hstand.exists_innermost hx
    exact ⟨q, x, s, r, hq, hkeeps.descend? hx, hs, hr, hy⟩
  · obtain ⟨_, -, _, -, _, hr, hy⟩ := hdealt.path y c hc
    exact hr.name_eq hy

theorem Arranged.modify {merged : NodeId → List NodeId} {g : Node → Node} (h : t.Arranged n levels merged u)
    (hname : ∀ m, (g m).name = m.name) (hparent : ∀ m, (g m).parent = m.parent)
    (hchildren : ∀ m, (g m).children = m.children) :
    t.Arranged n levels merged (u.withForest (u.modify p g)) := by
  have hshape : Forest.SameShape p u.toForest (u.modify p g) :=
    Forest.sameShape_modify hname hparent fun m c => by rw [hchildren]
  have hkids (x : Nat) : (u.modify p g).children x = u.children x := Forest.field_modify Node.children hchildren
  have hkeeps : Forest.Retains u.toForest (u.modify p g) :=
    .of_named fun x name => Forest.named_congr (hkids x) fun c _ => hshape.name c
  refine ⟨fun q names hq hnames => ?_, fun q hq => ?_, fun y hy => ?_, fun y c hc => ?_,
    fun y c hc => (hshape.name y).trans (h.named y c hc), h.once⟩
  · obtain ⟨x, first, hx, hfirst, hx'⟩ := h.rows q names hq hnames
    exact ⟨x, first, hkeeps.descend? hx, hfirst ▸ List.map_congr_left fun c _ => hshape.name c, (hkids x).trans hx'⟩
  · obtain ⟨x, first, hx, hfirst, hx'⟩ := h.innermost q hq
    exact ⟨x, first, hkeeps.descend? hx, hfirst, (hkids x).trans hx'⟩
  · have := h.deeper y hy
    rwa [← hkids] at this
  · obtain ⟨q, x, s, r, hq, hx, hs, hr, hy⟩ := h.place y c hc
    exact ⟨q, x, s, r, hq, hkeeps.descend? hx, hs, hr, hshape.route_iff.2 hy⟩

/-- **The order of an expanded branch.**  When a branch of a well-formed tree is expanded, whose levels repeat no name,
the instances of each level and the template's nodes come first wherever they come in, in their order, and what was
there keeps its order behind them. -/
theorem expandNode_arranged {created : Nat} (ht : t.WellFormed) (hn : n < t.count)
    (hlevels : levelNames (t.node n).payload = .ok levels) (hdup : ∀ names ∈ levels, names.Nodup)
    (hon : (expandNode n).on t = (.ok created, t')) : ∃ merged, t.Arranged n levels merged t' := by
  have hfertile : t.Fertile (fun _ => {}) n :=
    ⟨ht.linked, fun x name => grouped_of_nodup ((ht.children_nodup x).filter _), hn, fun _ _ => rfl⟩
  have hw : (t.withoutTemplate n levels).Fertile (fun _ => {}) n := hfertile.withoutTemplate
  have hcut := cut_withoutTemplate ht.linked n levels
  have hproto : levels ≠ [] → (t.node n).payload.clearInstances.kind = .branch := fun hne => by
    rw [Payload.kind_clearInstances]
    exact kind_of_levelNames hlevels hne
  have hself : (t.withoutTemplate n levels).StandAt n [[]] [n] := .cons rfl .nil
  rcases hmade : (instanceLevels (t.node n).payload.clearInstances levels [n]).on (t.withoutTemplate n levels) with
    ⟨e | leaves, u⟩
  · rw [expandNode_on_error ht.linked hlevels hmade] at hon
    cases hon
  · rw [expandNode_on_ok ht.linked hlevels hmade] at hon
    cases hon
    obtain ⟨hplanted, hstand⟩ := (instanceLevels_traced hw hproto hself).planted hmade
    have hled := instanceLevels_led hw hproto hself (List.nodup_singleton _) (k := 0) (by simp) hdup hmade
    have hu := hw.planted hplanted
    have hts : ∀ c ∈ t.template n levels, c < u.count ∧ u.Apart c n ∧
        Forest.SameBelow t.toForest u.toForest c := fun c hc => by
      have hparent := parent?_of_mem_template ht.linked hc
      have hlt : c < (t.withoutTemplate n levels).count := by
        rw [hcut.count]
        exact Forest.lt_count_of_parent? hparent
      have hapart := hcut.apart (fun _ hc => parent?_of_mem_template ht.linked hc) ht.linked hc
      exact ⟨Nat.lt_of_lt_of_le hlt hplanted.grown.count_le, hplanted.grown.apart hw.linked hlt hapart,
        (sameBelow_withoutTemplate ht.linked hparent).grown hplanted.grown hw.linked hlt hapart⟩
    have hbelow : ∀ x ∈ leaves, u.Below n x := fun x hx => by
      obtain ⟨q, -, hq⟩ := exists_of_mem_right hstand hx
      exact ⟨q, hu.linked.route_of_descend? hq⟩
    have hapart := hstand.pairwise_apart hu.linked (Level.nodup_leaves hdup (List.nodup_singleton _))
      fun q hq => (Level.mem_leaves_iff.1 hq).length_eq
    obtain ⟨merged, hdealt⟩ :=
      Forest.dealt_foldl_splice ht.linked ht.children_nodup hu.linked hu.lt_count hts hbelow hapart
    have hkeeps := (spliceAt_template hfertile hplanted hstand 0).2.2
    exact ⟨merged, (hled.arranged ht hstand hdealt hkeeps).modify (fun _ => rfl) (fun _ => rfl) fun _ => rfl⟩

/-- Two doors to come, of which the right one is declared with a window of its own. -/
def frames : Tree where
  nodes := #[
    { name := "Cabin", payload := .branch "cabin", children := [1] },
    { name := "Door", payload := { common := { description := "doors" }, body := .branch [⟨["Left", "Right"]⟩] },
      parent := some 0, children := [2, 6] },
    { name := "Right", payload := .branch "the right one", parent := some 1, children := [3] },
    { name := "Window", payload := .branch "its window", parent := some 2, children := [4, 5] },
    { name := "Glass", payload := .branch "glass", parent := some 3 },
    { name := "Handle", payload := .branch "its handle", parent := some 3 },
    { name := "Window", payload := .branch "window", parent := some 1, children := [7, 8] },
    { name := "Frame", payload := .branch "frame", parent := some 6 },
    { name := "Handle", payload := .branch "handle", parent := some 6 }]
  root := 0

theorem frames_arranged : ∃ created t' merged, (expandNode 1).on frames = (.ok created, t') ∧
    frames.Arranged 1 [["Left", "Right"]] merged t' ∧
    (t'.children 3).map (fun c => (t'.node c).name) = ["Frame", "Handle", "Glass"] := by
  have hlevels : levelNames (frames.node 1).payload = .ok [["Left", "Right"]] := by cbv
  have hok : ((expandNode 1).on frames).1.isOk = true := by decide +kernel
  have hwindow : (((expandNode 1).on frames).2.children 3).map (fun c => (((expandNode 1).on frames).2.node c).name) =
      ["Frame", "Handle", "Glass"] := by decide +kernel
  rcases hon : (expandNode 1).on frames with ⟨e | created, t'⟩
  · rw [hon] at hok
    cases hok
  · rw [hon] at hwindow
    obtain ⟨merged, harranged⟩ :=
      expandNode_arranged (wellFormed_of_isOrdered (by decide)) (by decide) hlevels (by decide) hon
    exact ⟨created, t', merged, rfl, harranged, hwindow⟩

end Tree
end SignalCatalog
