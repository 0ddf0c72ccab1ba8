import SignalCatalog.Proofs.Expand.Paths
import SignalCatalog.Proofs.Expand.Splice
import SignalCatalog.Proofs.Expand.Steps
/-!
# Making the instances of a branch

Making the instances of all levels fills their paths with one payload, and fails just when one of them is taken by a
node that is no branch.
-/
namespace SignalCatalog
namespace Tree

variable {t : Tree} {n p c : Nat} {proto : Payload} {name : String} {names : List String} {path : List String}

abbrev instanceContent (proto : Payload) : Content := ⟨proto, false⟩

structure Expandable (t : Tree) (n : Nat) : Prop where
  linked : t.Linked
  distinct : t.DistinctBelow n
  lt_count : n < t.count

theorem Expandable.of_filled {g : Forest} {o : Layer} (h : t.Expandable n) (hg : Forest.Filled n o t.toForest g) :
    (t.withForest g).Expandable n where
  linked := hg.linked
  distinct := hg.distinct
  lt_count := Nat.lt_of_lt_of_le h.lt_count hg.count_le

/-- **Instances made at some paths**: nodes stand at the ends, and nothing else is filled.  `different` is what keeps
children from being listed twice. -/
structure Made (t : Tree) (n : Nat) (proto : Payload) (paths ends : List (List String))
    (different : Prop) (ids : List NodeId)
    (t' : Tree) : Prop where
  filled : Forest.Filled n (.mark (instanceContent proto) paths) t.toForest t'.toForest
  same_root : t' = t.withForest t'.toForest
  stand : List.Forall₂ (fun q id => t'.Route n q id) ends ids
  nodup : different → t.ChildrenNodup → t'.ChildrenNodup

theorem content?_child (h : t.Expandable n) (hp : t.Route n path p) :
    t.content? n (path ++ [name]) = (t.childNamed? p name).map fun c => (t.node c).content := by
  rw [Forest.content?_append h.linked h.distinct hp, Forest.content?_cons]
  cases t.childNamed? p name <;> rfl

theorem instanceNode_made (h : t.Expandable n) (hp : t.Route n path p)
    (hclear : (t.content? n).ClearAt [path ++ [name]]) :
    ∃ c t', (instanceNode proto p name).on t = (.ok c, t') ∧
    t.Made n proto [path ++ [name]] [path ++ [name]] True [c] t' := by
  have hlt := hp.lt_count h.lt_count
  have hdp := h.distinct.mono ⟨_, hp⟩
  rw [instanceNode_on]
  cases hc : t.childNamed? p name with
  | none =>
    have hfill := Forest.filled_addChild (n := { name, payload := proto }) h.linked hdp hlt rfl rfl hc
    have hroute := Forest.route_addChild (n := { name, payload := proto }) hlt rfl rfl
    refine ⟨_, _, rfl, (hfill.lift h.linked h.distinct hp).of_eq ?_, rfl, ?_, fun _ hn => ?_⟩
    · rw [Layer.shift_shift, Layer.single_shift_eq_mark]
      rfl
    · exact .cons ((hfill.route hp).trans hroute) .nil
    · exact Forest.childrenNodup_addChild h.linked hn hlt rfl rfl
  | some c =>
    obtain ⟨hparent, hname⟩ := h.linked.mem_childNamed? hc
    have hroute : t.Route n (path ++ [name]) c := hname ▸ .down hp hparent
    have hkind : (t.node c).payload.kind = .branch :=
      hclear _ List.mem_cons_self (t.node c).content (by rw [content?_child h hp, hc]; rfl)
    have hfill := Forest.filled_declareIf h.linked (h.distinct.mono ⟨_, hroute⟩) (hroute.lt_count h.lt_count)
      (instanceContent proto)
    dsimp only
    rw [if_pos hkind]
    refine ⟨_, _, rfl, (hfill.lift h.linked h.distinct hroute).of_eq (Layer.single_shift_eq_mark _), rfl,
      .cons (hfill.route hroute) .nil, fun _ hn => ?_⟩
    change (if (t.node c).autogenerated then t.modify c fun n => n.declare proto else t.toForest).ChildrenNodup
    split
    · exact Forest.childrenNodup_modify hn fun _ hn => hn
    · exact hn

theorem instanceNode_failed (h : t.Expandable n) (hp : t.Route n path p)
    (hclear : ¬ (t.content? n).ClearAt [path ++ [name]]) : ∃ e, (instanceNode proto p name).on t = (.error e, t) := by
  rw [instanceNode_on]
  cases hc : t.childNamed? p name with
  | none =>
    refine absurd (fun q hq d hd => ?_) hclear
    rw [List.mem_singleton.1 hq, content?_child h hp, hc] at hd
    cases hd
  | some c =>
    dsimp only
    by_cases hk : (t.node c).payload.kind = .branch
    · refine absurd (fun q hq d hd => ?_) hclear
      rw [List.mem_singleton.1 hq, content?_child h hp, hc] at hd
      cases hd
      exact hk
    · rw [if_neg hk]
      exact ⟨_, rfl⟩

variable {t' t'' : Tree} {A B E F : List (List String)} {D D' : Prop} {ids jds : List NodeId}

namespace Made

theorem trans_filled (hA : t.Made n proto A E D ids t') (h : t.Linked) (hB : t'.Made n proto B F D' jds t'') :
    Forest.Filled n (.mark (instanceContent proto) (A ++ B)) t.toForest t''.toForest where
  toGrown := hA.filled.toGrown.trans h hB.filled.toGrown
  distinct := hB.filled.distinct
  content := by rw [hB.filled.content, hA.filled.content, Layer.fill_mark_mark rfl]

theorem same_root_trans (hA : t.Made n proto A E D ids t') (hB : t'.Made n proto B F D' jds t'') :
    t'' = t.withForest t''.toForest := by
  rw [hB.same_root, hA.same_root]
  rfl

theorem append (hA : t.Made n proto A E D ids t') (h : t.Linked) (hB : t'.Made n proto B F D' jds t'') :
    t.Made n proto (A ++ B) (E ++ F) (D ∧ D') (ids ++ jds) t'' where
  filled := hA.trans_filled h hB
  same_root := hA.same_root_trans hB
  stand := List.rel_append (hA.stand.imp fun _ _ hq => hB.filled.route hq) hB.stand
  nodup := fun hd hn => hB.nodup hd.2 (hA.nodup hd.1 hn)

theorem deeper (hA : t.Made n proto A E D ids t') (h : t.Linked) (hB : t'.Made n proto B F D' jds t'') :
    t.Made n proto (A ++ B) F (D ∧ D') jds t'' where
  filled := hA.trans_filled h hB
  same_root := hA.same_root_trans hB
  stand := hB.stand
  nodup := fun hd hn => hB.nodup hd.2 (hA.nodup hd.1 hn)

theorem imp (hA : t.Made n proto A E D ids t') (hD : D' → D) : t.Made n proto A E D' ids t' :=
  { hA with nodup := fun hd => hA.nodup (hD hd) }

theorem expandable (hA : t.Made n proto A E D ids t') (h : t.Expandable n) : t'.Expandable n := by
  have := h.of_filled hA.filled
  rwa [← hA.same_root] at this

theorem clearAt_iff (hA : t.Made n proto A E D ids t') (hproto : proto.kind = .branch)
    (hclear : (t.content? n).ClearAt A) :
    (t'.content? n).ClearAt B ↔ (t.content? n).ClearAt B := by
  rw [hA.filled.content]
  exact Layer.clearAt_fill hproto hclear

theorem nodup_ids (hA : t.Made n proto A E D ids t') (hE : E.Nodup) : ids.Nodup := by
  have hunique : Relator.BiUnique fun q id => t'.Route n q id :=
    ⟨fun _ _ _ hq hr => hA.filled.linked.route_unique hq hr,
      fun _ _ _ hx hy => hA.filled.linked.route_right_unique hA.filled.distinct hx hy⟩
  exact (List.rel_nodup hunique hA.stand).1 hE

end Made

theorem instanceRow_made (h : t.Expandable n) (hproto : proto.kind = .branch) (hp : t.Route n path p)
    (hclear : (t.content? n).ClearAt (names.map fun name => path ++ [name])) :
    ∃ ids t', (instanceRow proto p names).on t = (.ok ids, t') ∧
      t.Made n proto (names.map fun name => path ++ [name]) (names.map fun name => path ++ [name]) True ids t' := by
  induction names generalizing t with
  | nil =>
    refine ⟨[], t, rfl, (Forest.Filled.refl h.linked h.distinct).of_eq ?_, rfl, .nil, fun _ hn => hn⟩
    rw [List.map_nil, Layer.mark_nil]
  | cons name names ih =>
    rw [List.map_cons] at hclear
    obtain ⟨hfirst, hrest⟩ := Layer.clearAt_append (A := [path ++ [name]]).1 hclear
    obtain ⟨c, t₁, hon, hmade⟩ := instanceNode_made h hp hfirst
    obtain ⟨ids, t₂, hon', hmade'⟩ :=
      ih (hmade.expandable h) (hmade.filled.route hp) ((hmade.clearAt_iff hproto hfirst).2 hrest)
    refine ⟨c :: ids, t₂, ?_, (hmade.append h.linked hmade').imp fun _ => ⟨trivial, trivial⟩⟩
    rw [instanceRow, on_bind_ok hon, on_bind_ok hon', on_pure]

theorem instanceRow_failed (h : t.Expandable n) (hproto : proto.kind = .branch) (hp : t.Route n path p)
    (hclear : ¬ (t.content? n).ClearAt (names.map fun name => path ++ [name])) :
    ∃ e t', (instanceRow proto p names).on t = (.error e, t') := by
  induction names generalizing t with
  | nil => exact absurd (fun q hq => by cases hq) hclear
  | cons name names ih =>
    rw [List.map_cons, ← List.singleton_append, Layer.clearAt_append, not_and] at hclear
    by_cases hfirst : (t.content? n).ClearAt [path ++ [name]]
    · obtain ⟨c, t₁, hon, hmade⟩ := instanceNode_made h hp hfirst
      obtain ⟨e, t₂, hon'⟩ := ih (hmade.expandable h) (hmade.filled.route hp) fun hc =>
        hclear hfirst ((hmade.clearAt_iff hproto hfirst).1 hc)
      exact ⟨e, t₂, by rw [instanceRow, on_bind_ok hon, on_bind_error hon']⟩
    · obtain ⟨e, hon⟩ : ∃ e, (instanceNode proto p name).on t = (.error e, t) := instanceNode_failed h hp hfirst
      exact ⟨e, t, by rw [instanceRow, on_bind_error hon]⟩

theorem Made.reorder (hA : t.Made n proto A E D ids t') (h : t.Linked) (hp : t'.Route n path p) (hD : D' → D)
    (hids : D' → ids.Nodup) :
    t.Made n proto A E D' ids (t'.withForest (t'.reorder p ids)) where
  filled := by
    have hmoved := (Forest.filled_reorder hA.filled.linked (hA.filled.distinct.mono ⟨_, hp⟩) ids).lift hA.filled.linked
      hA.filled.distinct hp
    have hnone : Layer.shift (fun _ => none) path = fun _ => none := by
      funext q
      exact Option.eq_none_iff_forall_ne_some.2 fun c hc => by
        obtain ⟨r, -, hr⟩ := Layer.shift_eq_some.1 hc
        cases hr
    refine (hA.filled.trans h (hmoved.of_eq hnone) fun q => .inr rfl).of_eq ?_
    funext q
    rw [Option.or_none]
  same_root := by rw [hA.same_root]; rfl
  stand := hA.stand.imp fun _ _ hq => (Forest.sameShape_reorder ids).route_iff.2 hq
  nodup := fun hd hn => Forest.childrenNodup_reorder (hA.nodup (hD hd) hn) (hids hd)

theorem instanceLevel_made (h : t.Expandable n) (hproto : proto.kind = .branch)
    {Ps : List (List String)} {ps : List Nat} (hps : List.Forall₂ (fun q p => t.Route n q p) Ps ps)
    (hclear : (t.content? n).ClearAt (Level.frontier names Ps)) :
    ∃ ids t', (instanceLevel proto names ps).on t = (.ok ids, t') ∧
      t.Made n proto (Level.frontier names Ps) (Level.frontier names Ps) names.Nodup ids t' := by
  induction Ps generalizing t ps with
  | nil =>
    cases hps
    refine ⟨[], t, rfl, (Forest.Filled.refl h.linked h.distinct).of_eq ?_, rfl, .nil, fun _ hn => hn⟩
    rw [Level.frontier, List.flatMap_nil, Layer.mark_nil]
  | cons path Ps ih =>
    cases hps with
    | cons hp hps =>
      rw [Level.frontier, List.flatMap_cons, Layer.clearAt_append] at hclear
      obtain ⟨row, t₁, hon, hrow⟩ := instanceRow_made h hproto hp hclear.1
      have hmoved := hrow.reorder h.linked (hrow.filled.route hp) (fun _ => trivial) fun hn =>
        hrow.nodup_ids (Level.nodup_children_paths path hn)
      obtain ⟨ids, t₂, hon', hrest⟩ := ih (hmoved.expandable h) (hps.imp fun _ _ hq => hmoved.filled.route hq)
        ((hmoved.clearAt_iff hproto hclear.1).2 hclear.2)
      refine ⟨row ++ ids, t₂, ?_, (hmoved.append h.linked hrest).imp fun hn => ⟨hn, hn⟩⟩
      rw [instanceLevel, on_bind_ok hon, on_change_bind, on_bind_ok hon', on_pure]

theorem instanceLevel_failed (h : t.Expandable n) (hproto : proto.kind = .branch)
    {Ps : List (List String)} {ps : List Nat} (hps : List.Forall₂ (fun q p => t.Route n q p) Ps ps)
    (hclear : ¬ (t.content? n).ClearAt (Level.frontier names Ps)) :
    ∃ e t', (instanceLevel proto names ps).on t = (.error e, t') := by
  induction Ps generalizing t ps with
  | nil => exact absurd (fun q hq => by cases hq) hclear
  | cons path Ps ih =>
    cases hps with
    | cons hp hps =>
      rw [Level.frontier, List.flatMap_cons, Layer.clearAt_append, not_and] at hclear
      by_cases hfirst : (t.content? n).ClearAt (names.map fun name => path ++ [name])
      · obtain ⟨row, t₁, hon, hrow⟩ := instanceRow_made h hproto hp hfirst
        have hmoved := hrow.reorder h.linked (hrow.filled.route hp) (fun _ : False => trivial) False.elim
        obtain ⟨e, t₂, hon'⟩ := ih (hmoved.expandable h) (hps.imp fun _ _ hq => hmoved.filled.route hq) fun hc =>
          hclear hfirst ((hmoved.clearAt_iff hproto hfirst).1 hc)
        exact ⟨e, t₂, by rw [instanceLevel, on_bind_ok hon, on_change_bind, on_bind_error hon']⟩
      · obtain ⟨e, t₁, hon⟩ := instanceRow_failed h hproto hp hfirst
        exact ⟨e, t₁, by rw [instanceLevel, on_bind_error hon]⟩

/-- **All levels**, from a frontier inwards. -/
theorem instanceLevels_made (h : t.Expandable n) (hproto : proto.kind = .branch) {levels : List (List String)}
    {Ps : List (List String)} {ps : List Nat} (hps : List.Forall₂ (fun q p => t.Route n q p) Ps ps)
    (hclear : (t.content? n).ClearAt (Level.paths levels Ps)) :
    ∃ ids t', (instanceLevels proto levels ps).on t = (.ok ids, t') ∧
      t.Made n proto (Level.paths levels Ps) (Level.leaves levels Ps) (∀ names ∈ levels, names.Nodup) ids t' := by
  induction levels generalizing t Ps ps with
  | nil =>
    refine ⟨ps, t, rfl, (Forest.Filled.refl h.linked h.distinct).of_eq ?_, rfl, hps, fun _ hn => hn⟩
    rw [Level.paths, Layer.mark_nil]
  | cons names levels ih =>
    rw [Level.paths, Layer.clearAt_append] at hclear
    obtain ⟨ids, t₁, hon, hmade⟩ := instanceLevel_made h hproto hps hclear.1
    obtain ⟨jds, t₂, hon', hrest⟩ :=
      ih (hmade.expandable h) hmade.stand ((hmade.clearAt_iff hproto hclear.1).2 hclear.2)
    refine ⟨jds, t₂, ?_, (hmade.deeper h.linked hrest).imp List.forall_mem_cons.1⟩
    rw [instanceLevels, on_bind_ok hon, hon']

theorem instanceLevels_failed (h : t.Expandable n) (hproto : proto.kind = .branch) {levels : List (List String)}
    {Ps : List (List String)} {ps : List Nat} (hps : List.Forall₂ (fun q p => t.Route n q p) Ps ps)
    (hclear : ¬ (t.content? n).ClearAt (Level.paths levels Ps)) :
    ∃ e t', (instanceLevels proto levels ps).on t = (.error e, t') := by
  induction levels generalizing t Ps ps with
  | nil => exact absurd (fun q hq => by cases hq) hclear
  | cons names levels ih =>
    rw [Level.paths, Layer.clearAt_append, not_and] at hclear
    by_cases hfirst : (t.content? n).ClearAt (Level.frontier names Ps)
    · obtain ⟨ids, t₁, hon, hmade⟩ := instanceLevel_made h hproto hps hfirst
      obtain ⟨e, t₂, hon'⟩ :=
        ih (hmade.expandable h) hmade.stand fun hc => hclear hfirst ((hmade.clearAt_iff hproto hfirst).1 hc)
      exact ⟨e, t₂, by rw [instanceLevels, on_bind_ok hon, hon']⟩
    · obtain ⟨e, t₁, hon⟩ := instanceLevel_failed h hproto hps hfirst
      exact ⟨e, t₁, by rw [instanceLevels, on_bind_error hon]⟩

end Tree
end SignalCatalog
