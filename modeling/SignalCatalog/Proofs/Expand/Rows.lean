import SignalCatalog.Proofs.Expand.Instances
import SignalCatalog.Proofs.Forest.Front
/-!
# Instances row by row

The instances of a branch are made row by row: one parent takes the names of its level and is put in order before the
next one has its turn.  A run that fails has finished some rows and begun another.  What it did is seen in the tree
afterwards, unless all that was to be made was there and in order, and then it did nothing.
-/
namespace SignalCatalog

namespace Level

variable {levels : List (List String)} {names : List String} {Ps : List (List String)} {k : Nat}

/-- **A row**: the path of a parent and the names that it takes. -/
abbrev Row := List String × List String

def rowPaths (row : Row) : List (List String) := row.2.map fun name => row.1 ++ [name]

/-- **The rows of all levels**, from a frontier inwards. -/
def rows : List (List String) → List (List String) → List Row
  | [], _ => []
  | names :: rest, Ps => (Ps.map fun path => (path, names)) ++ rows rest (frontier names Ps)

theorem flatMap_rowPaths : (Ps.map fun path => (path, names)).flatMap rowPaths = frontier names Ps := by
  rw [List.flatMap_map, frontier]
  rfl

/-- **Rows of one parent have the same names.** -/
def Coherent (rows : List Row) : Prop := ∀ a ∈ rows, ∀ b ∈ rows, a.1 = b.1 → a.2 = b.2

theorem Coherent.mono {rows rows' : List Row} (h : Coherent rows) (hsub : rows' ⊆ rows) : Coherent rows' :=
  fun a ha b hb => h a (hsub ha) b (hsub hb)

theorem length_frontier (hPs : ∀ q ∈ Ps, q.length = k) : ∀ q ∈ frontier names Ps, q.length = k + 1 := fun q hq => by
  obtain ⟨path, hpath, name, -, rfl⟩ := mem_frontier.1 hq
  rw [List.length_append, hPs path hpath, List.length_singleton]

theorem getElem?_of_mem_rows {row : Row} (hPs : ∀ q ∈ Ps, q.length = k) (h : row ∈ rows levels Ps) :
    k ≤ row.1.length ∧ levels[row.1.length - k]? = some row.2 := by
  induction levels generalizing Ps k with
  | nil => cases h
  | cons names levels ih =>
    rcases List.mem_append.1 h with h | h
    · obtain ⟨path, hpath, rfl⟩ := List.mem_map.1 h
      rw [hPs path hpath, Nat.sub_self]
      exact ⟨Nat.le_refl _, rfl⟩
    · obtain ⟨hle, hget⟩ := ih (length_frontier hPs) h
      refine ⟨by omega, ?_⟩
      rw [show row.1.length - k = row.1.length - (k + 1) + 1 by omega, List.getElem?_cons_succ, hget]

theorem getElem?_of_row {row : Row} (h : row ∈ rows levels [[]]) : levels[row.1.length]? = some row.2 :=
  (getElem?_of_mem_rows (k := 0) (by simp) h).2

theorem coherent_rows (levels : List (List String)) : Coherent (rows levels [[]]) := by
  intro a ha b hb hab
  have hget := getElem?_of_row ha
  rw [hab, getElem?_of_row hb] at hget
  exact (Option.some.inj hget).symm

end Level

namespace Forest

variable {f g : Forest} {p : Nat} {ids : List Nat} {names : List String}

/-- **The first children of a node**, told by their names. -/
def Leads (f : Forest) (p : NodeId) (names : List String) : Prop :=
  names <+: (f.children p).map fun c => (f.node c).name

theorem Leads.addChild {a : Nat} {n : Node} (h : f.Leads p names) (hf : f.Linked) (ha : a < f.count)
    (hn : n.parent = none) (hc : n.children = []) : (f.addChild a n).1.Leads p names := by
  have hold : ((f.children p).map fun c => ((f.addChild a n).1.node c).name) = (f.children p).map fun c =>
      (f.node c).name := by
    refine List.map_congr_left fun c hcp => ?_
    rw [name_addChild ha hn hc, if_neg (Nat.ne_of_lt (lt_count_of_parent? (hf.mem_children.1 hcp)))]
  rw [Leads, children_addChild ha hn hc]
  split
  · rename_i hpa
    subst hpa
    rw [List.map_append, hold]
    exact h.trans (List.prefix_append _ _)
  · rwa [hold]

theorem Leads.declareIf {a : Nat} (h : f.Leads p names) (b : Bool) (pl : Payload) :
    (if b then f.modify a fun n => n.declare pl else f).Leads p names := by
  split
  · have hchildren : (f.modify a fun n => n.declare pl).children p = f.children p :=
      field_modify Node.children fun _ => rfl
    rw [Leads, hchildren]
    exact (List.map_congr_left fun c _ => ((sameShape_declare pl).name c).symm) ▸ h
  · exact h

theorem leads_reorder (hids : ∀ c ∈ ids, c ∈ f.children p) (hnames : ids.map (fun c => (f.node c).name) = names) :
    (f.reorder p ids).Leads p names := by
  rw [Leads, children_reorder hids, front, List.map_append]
  refine ⟨_, congrArg (· ++ _) ?_⟩
  rw [← hnames]
  exact List.map_congr_left fun c _ => ((sameShape_reorder ids).name c).symm

theorem reorder_of_leads (hf : f.Linked) (hn : (f.children p).Nodup) (hd : f.DistinctBelow p)
    (hids : ∀ c ∈ ids, c ∈ f.children p) (hleads : f.Leads p (ids.map fun c => (f.node c).name)) :
    f.reorder p ids = f := by
  obtain ⟨rest, hrest⟩ := hleads
  obtain ⟨first, others, hsplit, hfirst, -⟩ := List.append_eq_map_iff.1 hrest
  -- children are told apart by their names
  have heq : first = ids := by
    refine List.ext_getElem (by simpa using congrArg List.length hfirst) fun i hi hi' => ?_
    refine hd .refl (hf.mem_children.1 ?_) (hf.mem_children.1 (hids _ (List.getElem_mem hi'))) ?_
    · rw [hsplit]
      exact List.mem_append_left _ (List.getElem_mem hi)
    · have hi : i < (first.map fun c => (f.node c).name).length := by simpa using hi
      simpa using List.getElem_of_eq hfirst hi
  subst heq
  rw [hsplit] at hn
  refine modify_eq_self (congrArg (fun cs => { f.node p with children := cs }) ?_)
  change first.filter (f.children p).contains ++ (f.children p).filter (fun c => !first.contains c) = f.children p
  rw [List.filter_eq_self.2 fun c hc => by simpa using hids c hc, hsplit, List.filter_append,
    List.filter_eq_nil_iff.2 fun c hc => by simpa using hc, List.filter_eq_self.2 fun c hc => ?_, List.nil_append]
  simpa using fun hc' => (List.nodup_append.1 hn).2.2 c hc' c hc rfl

end Forest

namespace Tree

open Level (Row rowPaths Coherent)

variable {t t₁ t' : Tree} {n p c : Nat} {proto : Payload} {name : String} {names : List String} {path : List String}
  {done done' rows rows' : List Row} {A B E F : List (List String)} {ids jds : List NodeId} {e : ExpansionError}

/-- **A node that is no placeholder** stands at a path. -/
def Declared (t : Tree) (n : NodeId) (q : List String) : Prop := ∃ x, t.Route n q x ∧ (t.node x).autogenerated = false

/-- **A row that is in order**: its parent is there, and the children of its names come first. -/
def InOrder (t : Tree) (n : NodeId) (row : Row) : Prop := ∃ p, t.Route n row.1 p ∧ t.Leads p row.2

/-- **Instances made at some paths, and some rows put in order.** -/
structure Undergone (t : Tree) (n : Nat) (proto : Payload) (done : List Row)
    (paths ends : List (List String)) (ids : List NodeId)
    (t' : Tree) : Prop where
  made : t.Made n proto paths ends False ids t'
  /-- What came first in a node comes first still, unless a row of other names was put in order there. -/
  leads : ∀ r p names, t.Route n r p → (∀ row ∈ done, row.1 = r → row.2 = names) → t.Leads p names → t'.Leads p names
  ordered : ∀ row ∈ done, t'.InOrder n row
  /-- Where everything was there and in order, nothing is done. -/
  idle : t.ChildrenNodup → (∀ q ∈ paths, t.Declared n q) → (∀ row ∈ done, t.InOrder n row) → t' = t

/-- **The place of an instance is taken** by a node that is no branch. -/
def Collides (t : Tree) (n : NodeId) (path : List String) (name : String) (e : ExpansionError) : Prop :=
  ∃ x, t.Route n (path ++ [name]) x ∧ (t.node x).payload.kind ≠ .branch ∧
    e = .node { fqn := t.fqn x, cause := .invariant (.instanceCollision name (t.node x).payload.kind) }

/-- **A run over rows that fails**: some rows are done, and of the next one some names. -/
def Stops (t : Tree) (n : Nat) (proto : Payload) (rows : List Row) (e : ExpansionError) (t' : Tree) : Prop :=
  ∃ done path made name rest after, rows = done ++ (path, made ++ name :: rest) :: after ∧
    t.Undergone n proto done (done.flatMap rowPaths ++ rowPaths (path, made)) [] [] t' ∧ t'.Collides n path name e

namespace Undergone

theorem refl (h : t.Expandable n) (hstand : List.Forall₂ (fun q id => t.Route n q id) E ids) :
    t.Undergone n proto [] [] E ids t where
  made := ⟨(Forest.Filled.refl h.linked h.distinct).of_eq Layer.mark_nil.symm, rfl, hstand, fun _ hn => hn⟩
  leads := fun _ _ _ _ _ hl => hl
  ordered := by simp
  idle := fun _ _ _ => rfl

theorem deeper (hA : t.Undergone n proto done A E ids t₁) (h : t.Linked) (hB : t₁.Undergone n proto done' B F jds t')
    (hrows : Coherent (done ++ done')) : t.Undergone n proto (done ++ done') (A ++ B) F jds t' where
  made := (hA.made.deeper h hB.made).imp fun hf => ⟨hf, hf⟩
  leads := by
    intro r p names hp hsame hl
    refine hB.leads r p names (hA.made.filled.route hp) (fun row hrow => hsame row (List.mem_append_right _ hrow)) ?_
    exact hA.leads r p names hp (fun row hrow => hsame row (List.mem_append_left _ hrow)) hl
  ordered := by
    intro row hrow
    rcases List.mem_append.1 hrow with hold | hnew
    · obtain ⟨p, hp, hl⟩ := hA.ordered row hold
      refine ⟨p, hB.made.filled.route hp, hB.leads row.1 p row.2 hp (fun row' hrow' heq => ?_) hl⟩
      exact hrows row' (List.mem_append_right _ hrow') row hrow heq
    · exact hB.ordered row hnew
  idle := by
    intro hn hdeclared hordered
    obtain rfl := hA.idle hn (fun q hq => hdeclared q (List.mem_append_left _ hq)) fun row hrow =>
      hordered row (List.mem_append_left _ hrow)
    exact hB.idle hn (fun q hq => hdeclared q (List.mem_append_right _ hq)) fun row hrow =>
      hordered row (List.mem_append_right _ hrow)

theorem append (hA : t.Undergone n proto done A E ids t₁) (h : t.Linked) (hB : t₁.Undergone n proto done' B F jds t')
    (hrows : Coherent (done ++ done')) : t.Undergone n proto (done ++ done') (A ++ B) (E ++ F) (ids ++ jds) t' :=
  { hA.deeper h hB hrows with made := (hA.made.append h hB.made).imp fun hf => ⟨hf, hf⟩ }

theorem expandable (hA : t.Undergone n proto done A E ids t') (h : t.Expandable n) :
    t'.Expandable n := hA.made.expandable h

theorem reorder (h : t.Expandable n) (hp : t.Route n path p)
    (hA : t.Undergone n proto [] (rowPaths (path, names)) (rowPaths (path, names)) ids t') :
    t.Undergone n proto [(path, names)] (rowPaths (path, names)) (rowPaths (path, names)) ids
      (t'.withForest (t'.reorder p ids)) := by
  have hp' := hA.made.filled.route hp
  have h' := hA.expandable h
  have hchild : List.Forall₂ (fun name c => t'.parent? c = some p ∧ (t'.node c).name = name) names ids := by
    refine (List.forall₂_map_left_iff.1 hA.made.stand).imp fun name c hc => ?_
    obtain ⟨b, hb, hparent, hname⟩ := hc.of_snoc
    obtain rfl := h'.linked.route_right_unique h'.distinct hb hp'
    exact ⟨hparent, hname⟩
  have hids : ∀ c ∈ ids, c ∈ t'.children p := fun c hc => by
    obtain ⟨name, -, hparent, -⟩ := exists_of_mem_right hchild hc
    exact h'.linked.mem_children.2 hparent
  have hnames : ids.map (fun c => (t'.node c).name) = names := by
    refine List.forall₂_eq_eq_eq ▸ List.forall₂_map_left_iff.2 (hchild.imp fun _ _ hc => hc.2).flip
  have hshape := Forest.sameShape_reorder (f := t'.toForest) (p := p) ids
  refine ⟨hA.made.reorder h.linked hp' id False.elim, fun r p' names' hr hsame hl => ?_, ?_,
    fun hn hdeclared hordered => ?_⟩
  · by_cases heq : p' = p
    · subst heq
      have hr' := h.linked.route_unique hp hr
      rw [← hsame _ List.mem_cons_self hr']
      exact Forest.leads_reorder hids hnames
    · have hl' := hA.leads r p' names' hr (by simp) hl
      rw [Forest.Leads] at hl' ⊢
      change names' <+: ((t'.reorder p ids).children p').map fun c => ((t'.reorder p ids).node c).name
      rw [Forest.children, hshape.other heq]
      exact (List.map_congr_left fun c _ => (hshape.name c).symm) ▸ hl'
  · exact List.forall_mem_singleton.2 ⟨p, hshape.route_iff.2 hp', Forest.leads_reorder hids hnames⟩
  · obtain rfl := hA.idle hn hdeclared (by simp)
    obtain ⟨b, hb, hl⟩ := List.forall_mem_singleton.1 hordered
    obtain rfl := h.linked.route_right_unique h.distinct hb hp
    rw [Forest.reorder_of_leads h.linked (hn b) (h.distinct.mono ⟨_, hp⟩) hids (hnames ▸ hl)]
    rfl

end Undergone

namespace Stops

theorem extend (hS : t.Stops n proto rows e t') (rows' : List Row) : t.Stops n proto (rows ++ rows') e t' := by
  obtain ⟨done, path, made, name, rest, after, rfl, hdone, hc⟩ := hS
  exact ⟨done, path, made, name, rest, after ++ rows', by simp, hdone, hc⟩

/-- Rows are done, and then a run over the others fails. -/
theorem after (hS : t₁.Stops n proto rows e t') (hA : t.Undergone n proto done A E ids t₁)
    (hpaths : done.flatMap rowPaths = A) (h : t.Linked) (hrows : Coherent (done ++ rows)) :
    t.Stops n proto (done ++ rows) e t' := by
  obtain ⟨done', path, made, name, rest, after, rfl, hdone, hc⟩ := hS
  refine ⟨done ++ done', path, made, name, rest, after, by simp, ?_, hc⟩
  rw [List.flatMap_append, List.append_assoc, hpaths]
  refine hA.deeper h hdone (hrows.mono ?_)
  rw [← List.append_assoc]
  exact List.subset_append_left _ _

end Stops

/-! ## The runs -/

theorem instanceNode_outcome {a : Except ExpansionError NodeId} (h : t.Expandable n) (hp : t.Route n path p)
    (hon : (instanceNode proto p name).on t = (a, t')) :
    (∃ c, a = .ok c ∧ t.Undergone n proto [] [path ++ [name]] [path ++ [name]] [c] t') ∨
      ∃ e, a = .error e ∧ t' = t ∧ t.Collides n path name e := by
  have hcontent : t.content? n (path ++ [name]) = (t.childNamed? p name).map fun c => (t.node c).content :=
    content?_child h hp
  have hmade (hclear : (t.content? n).ClearAt [path ++ [name]]) :
      ∃ c, a = .ok c ∧ t.Made n proto [path ++ [name]] [path ++ [name]] False [c] t' := by
    obtain ⟨c, u, hon', hmade⟩ : ∃ c t', (instanceNode proto p name).on t = (.ok c, t') ∧
        t.Made n proto [path ++ [name]] [path ++ [name]] True [c] t' := instanceNode_made h hp hclear
    rw [hon] at hon'
    cases hon'
    exact ⟨c, rfl, hmade.imp fun _ => trivial⟩
  rw [instanceNode_on] at hon
  cases hc : t.childNamed? p name with
  | none =>
    rw [hc] at hon
    cases hon
    obtain ⟨c, hok, hmade⟩ := hmade fun q hq d hd => by
      rw [List.mem_singleton.1 hq, hcontent, hc] at hd
      cases hd
    refine .inl ⟨c, hok, hmade, fun r p' names _ _ hl => hl.addChild h.linked (hp.lt_count h.lt_count) rfl rfl, by simp,
      fun _ hdeclared _ => ?_⟩
    obtain ⟨x, hx, -⟩ := hdeclared _ List.mem_cons_self
    obtain ⟨b, hb, hparent, hname⟩ := hx.of_snoc
    obtain rfl := h.linked.route_right_unique h.distinct hb hp
    exact absurd hname (h.linked.childNamed?_eq_none.1 hc x hparent)
  | some c =>
    rw [hc] at hon
    obtain ⟨hparent, hname⟩ := h.linked.mem_childNamed? hc
    have hroute : t.Route n (path ++ [name]) c := hname ▸ .down hp hparent
    dsimp only at hon
    split at hon
    · rename_i hkind
      cases hon
      obtain ⟨c', hok, hmade⟩ := hmade fun q hq d hd => by
        rw [List.mem_singleton.1 hq, hcontent, hc] at hd
        cases hd
        exact hkind
      refine .inl ⟨c', hok, hmade, fun r p' names _ _ hl => hl.declareIf _ proto, by simp, fun _ hdeclared _ => ?_⟩
      obtain ⟨x, hx, hauto⟩ := hdeclared _ List.mem_cons_self
      obtain rfl := h.linked.route_right_unique h.distinct hx hroute
      rw [hauto]
      rfl
    · rename_i hkind
      cases hon
      exact .inr ⟨_, rfl, rfl, c, hroute, hkind, rfl⟩

theorem instanceRow_outcome {a : Except ExpansionError (List NodeId)} (h : t.Expandable n) (hp : t.Route n path p)
    (hon : (instanceRow proto p names).on t = (a, t')) :
    (∃ ids, a = .ok ids ∧ t.Undergone n proto [] (rowPaths (path, names)) (rowPaths (path, names)) ids t') ∨
      ∃ e, a = .error e ∧ t.Stops n proto [(path, names)] e t' := by
  induction names generalizing t a with
  | nil =>
    cases hon
    exact .inl ⟨[], rfl, .refl h .nil⟩
  | cons name names ih =>
    rcases on_bind_cases hon with ⟨e, hone, rfl⟩ | ⟨c, t₁, hone, hon⟩
    · obtain ⟨_, hok, -⟩ | ⟨e', he, rfl, hc⟩ := instanceNode_outcome h hp hone
      · cases hok
      · cases he
        exact .inr ⟨e, rfl, [], path, [], name, names, [], rfl, .refl h .nil, hc⟩
    obtain ⟨_, hok, hfirst⟩ | ⟨_, he, -⟩ := instanceNode_outcome h hp hone
    · cases hok
      have hrest {a : Except ExpansionError (List NodeId)} (hon : (instanceRow proto p names).on t₁ = (a, t')) :=
        ih (hfirst.expandable h) (hfirst.made.filled.route hp) hon
      rcases on_bind_cases hon with ⟨e, hnames, rfl⟩ | ⟨ids, t₂, hnames, hon⟩
      · obtain ⟨_, hok, -⟩ | ⟨_, he, done, path', made, name', rest, after, heq, hdone, hc⟩ := hrest hnames
        · cases hok
        · cases he
          obtain ⟨rfl, hcons⟩ | ⟨done, rfl, hcons⟩ := List.cons_eq_append_iff.1 heq
          · cases hcons
            refine .inr ⟨e, rfl, [], path, name :: made, name', rest, [], rfl, ?_, hc⟩
            exact hfirst.deeper h.linked hdone (by simp [Coherent])
          · simp at hcons
      · cases hon
        obtain ⟨_, hok, hdone⟩ | ⟨_, he, -⟩ := hrest hnames
        · cases hok
          exact .inl ⟨_, rfl, hfirst.append h.linked hdone (by simp [Coherent])⟩
        · cases he
    · cases he

theorem instanceLevel_outcome {a : Except ExpansionError (List NodeId)} (h : t.Expandable n)
    {Ps : List (List String)} {ps : List Nat} (hps : List.Forall₂ (fun q p => t.Route n q p) Ps ps)
    (hon : (instanceLevel proto names ps).on t = (a, t')) :
    (∃ ids, a = .ok ids ∧ t.Undergone n proto (Ps.map fun path => (path, names)) (Level.frontier names Ps)
      (Level.frontier names Ps) ids t') ∨
      ∃ e, a = .error e ∧ t.Stops n proto (Ps.map fun path => (path, names)) e t' := by
  induction Ps generalizing t ps a with
  | nil =>
    cases hps
    cases hon
    exact .inl ⟨[], rfl, .refl h .nil⟩
  | cons path Ps ih =>
    cases hps with
    | cons hp hps =>
      -- the level stops in its first row, or in one of the others after that one was done
      have hco : Coherent ([(path, names)] ++ Ps.map fun path => (path, names)) := by simp [Coherent]
      rcases on_bind_cases hon with ⟨e, hrow, rfl⟩ | ⟨row, t₁, hrow, hon⟩
      · obtain ⟨_, hok, -⟩ | ⟨_, he, hstop⟩ := instanceRow_outcome h hp hrow
        · cases hok
        · cases he
          exact .inr ⟨e, rfl, hstop.extend _⟩
      obtain ⟨_, hok, hnames⟩ | ⟨_, he, -⟩ := instanceRow_outcome h hp hrow
      · cases hok
        have hfirst := hnames.reorder h hp
        rw [on_change_bind] at hon
        have hrest {a : Except ExpansionError (List NodeId)}
            (hon : (instanceLevel proto names _).on (t₁.withForest (t₁.reorder _ row)) = (a, t')) :=
          ih (hfirst.expandable h) (hps.imp fun _ _ hq => hfirst.made.filled.route hq) hon
        rcases on_bind_cases hon with ⟨e, hlevel, rfl⟩ | ⟨ids, t₂, hlevel, hon⟩
        · obtain ⟨_, hok, -⟩ | ⟨_, he, hstop⟩ := hrest hlevel
          · cases hok
          · cases he
            exact .inr ⟨e, rfl, hstop.after hfirst (List.flatMap_singleton ..) h.linked hco⟩
        · cases hon
          obtain ⟨_, hok, hdone⟩ | ⟨_, he, -⟩ := hrest hlevel
          · cases hok
            exact .inl ⟨_, rfl, hfirst.append h.linked hdone hco⟩
          · cases he
      · cases he

/-- **All levels**: the rows from the frontier inwards, or those before the one in which a place is taken. -/
theorem instanceLevels_outcome {a : Except ExpansionError (List NodeId)} (h : t.Expandable n)
    {levels Ps : List (List String)} {ps : List Nat} (hps : List.Forall₂ (fun q p => t.Route n q p) Ps ps)
    (hrows : Coherent (Level.rows levels Ps)) (hon : (instanceLevels proto levels ps).on t = (a, t')) :
    (∃ ids, a = .ok ids ∧ t.Undergone n proto (Level.rows levels Ps) (Level.paths levels Ps)
      (Level.leaves levels Ps) ids t') ∨
      ∃ e, a = .error e ∧ t.Stops n proto (Level.rows levels Ps) e t' := by
  induction levels generalizing t Ps ps a with
  | nil =>
    cases hon
    exact .inl ⟨ps, rfl, .refl h hps⟩
  | cons names levels ih =>
    rcases on_bind_cases hon with ⟨e, hlevel, rfl⟩ | ⟨ids, t₁, hlevel, hon⟩
    · obtain ⟨_, hok, -⟩ | ⟨_, he, hstop⟩ := instanceLevel_outcome h hps hlevel
      · cases hok
      · cases he
        exact .inr ⟨e, rfl, hstop.extend _⟩
    obtain ⟨_, hok, hfirst⟩ | ⟨_, he, -⟩ := instanceLevel_outcome h hps hlevel
    · cases hok
      obtain ⟨jds, rfl, hdone⟩ | ⟨e, rfl, hstop⟩ :=
        ih (hfirst.expandable h) hfirst.made.stand (hrows.mono (List.subset_append_right _ _)) hon
      · exact .inl ⟨jds, rfl, hfirst.deeper h.linked hdone hrows⟩
      · exact .inr ⟨e, rfl, hstop.after hfirst Level.flatMap_rowPaths h.linked hrows⟩
    · cases he

end Tree
end SignalCatalog
