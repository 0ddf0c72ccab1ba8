import SignalCatalog.Proofs.Merge.Ensure
import SignalCatalog.Proofs.Steps
/-!
# Running a merge step by step

What each kind of overlay node does to the base.
-/
namespace SignalCatalog
namespace Tree

variable {α β : Type} {m : Merging α} {k : α → Merging β} {r : Registry} {o u u' : Tree} {a : α}
  {e : OverlayError} {stats : MergeStats} {grafted ids rest : List NodeId} {id x : Nat} {fqn name : String}
  {q : List String} {p : Payload}

/-- What a step does to the base. -/
def Merging.on (m : Merging α) (t : Tree) : Except OverlayError α × Tree := m.run.run t

theorem merging_bind_ok (h : m.on u = (.ok a, u')) : (m >>= k).on u = (k a).on u' := run_bind_ok h

theorem merging_bind_error (h : m.on u = (.error e, u')) : (m >>= k).on u = (.error e, u') := run_bind_error h

theorem merging_get_bind {k : Tree → Merging β} : (get >>= k).on u = (k u).on u := rfl

/-- The base with the payload of a node declared. -/
def declareAt (u : Tree) (x : NodeId) (p : Payload) : Tree := u.withForest (u.modify x fun n => n.declare p)

theorem overwrite_on (fqn : String) (x : Nat) (p : Payload) : (overwrite r fqn x p).on u =
    match Payload.refine r (u.node x).payload p with
    | .ok merged => (.ok (), u.declareAt x merged)
    | .error cause => (.error (.node { fqn, cause }), u) := by
  rw [overwrite]
  rw [merging_get_bind]
  cases Payload.refine r (u.node x).payload p <;> rfl

theorem mergeNodes_grafted (h : id ∈ grafted) :
    (mergeNodes r o stats grafted (id :: rest)).on u = (mergeNodes r o stats grafted rest).on u := by
  rw [mergeNodes, if_pos (by simpa using h)]

theorem mergeNodes_auto (h : id ∉ grafted) (hauto : (o.node id).autogenerated = true) :
    (mergeNodes r o stats grafted (id :: rest)).on u =
      (mergeNodes r o { stats with skipped := stats.skipped + 1 } grafted rest).on u := by
  rw [mergeNodes, if_neg (by simpa using h)]
  dsimp only
  rw [if_pos hauto]

theorem mergeNodes_overwrite (h : id ∉ grafted) (hauto : (o.node id).autogenerated = false)
    (hfind : u.find? (o.fqn id) = some x) :
    (mergeNodes r o stats grafted (id :: rest)).on u =
      match Payload.refine r (u.node x).payload (o.node id).payload with
      | .ok merged => (mergeNodes r o { stats with overwritten := stats.overwritten + 1 } grafted rest).on
        (u.declareAt x merged)
      | .error cause => (.error (.node { fqn := o.fqn id, cause }), u) := by
  have hwrite := overwrite_on (r := r) (u := u) (o.fqn id) x (o.node id).payload
  rw [mergeNodes, if_neg (by simpa using h)]
  dsimp only
  rw [if_neg (by simp [hauto])]
  rw [merging_get_bind, hfind]
  dsimp only
  cases hrefine : Payload.refine r (u.node x).payload (o.node id).payload with
  | ok merged =>
    rw [hrefine] at hwrite
    exact merging_bind_ok hwrite
  | error cause =>
    rw [hrefine] at hwrite
    exact merging_bind_error hwrite

theorem mergeNodes_add (h : id ∉ grafted) (hauto : (o.node id).autogenerated = false)
    (hfind : u.find? (o.fqn id) = none)
    (hparent : (ensureParent (o.fqn id) (QualifiedName.parent? (o.fqn id))).on u = (.ok x, u')) :
    (mergeNodes r o stats grafted (id :: rest)).on u =
      (mergeNodes r o { stats with added := stats.added + 1 } (grafted ++ o.subtree id) rest).on
        (u'.withForest (u'.graft o.toForest id x).1) := by
  rw [mergeNodes, if_neg (by simpa using h)]
  dsimp only
  rw [if_neg (by simp [hauto])]
  rw [merging_get_bind, hfind]
  exact merging_bind_ok hparent

theorem mergeNodes_nowhere (h : id ∉ grafted) (hauto : (o.node id).autogenerated = false)
    (hfind : u.find? (o.fqn id) = none)
    (hparent : (ensureParent (o.fqn id) (QualifiedName.parent? (o.fqn id))).on u = (.error e, u')) :
    (mergeNodes r o stats grafted (id :: rest)).on u = (.error e, u') := by
  rw [mergeNodes, if_neg (by simpa using h)]
  dsimp only
  rw [if_neg (by simp [hauto])]
  rw [merging_get_bind, hfind]
  exact merging_bind_error hparent

/-- **What asking for a parent can do**: it fails and leaves the base alone, or finds a node that is there, or
makes one. -/
theorem ensureParent_cases {parent : Option String} {found : Except OverlayError NodeId}
    (hon : (ensureParent fqn parent).on u = (found, u')) :
    (∃ e, found = .error e) ∧ u' = u ∨
      ∃ name x, found = .ok x ∧ (u.find? name = some x ∧ u' = u ∨ u.ensure name = (u', some x)) := by
  rw [ensureParent, merging_get_bind] at hon
  cases parent with
  | none =>
    cases hon
    exact .inl ⟨⟨_, rfl⟩, rfl⟩
  | some name =>
    dsimp only at hon
    cases hfind : u.find? name with
    | some x =>
      rw [hfind] at hon
      cases hon
      exact .inr ⟨name, x, rfl, .inl ⟨hfind, rfl⟩⟩
    | none =>
      rw [hfind] at hon
      dsimp only at hon
      rcases hensure : u.ensure name with ⟨v, _ | x⟩
      · rw [hensure] at hon
        cases hon
        exact .inl ⟨⟨_, rfl⟩, rfl⟩
      · rw [hensure] at hon
        cases hon
        exact .inr ⟨name, x, rfl, .inr hensure⟩

/-- **A base of a kind has no place for a node**: it lacks the node and a parent for it. -/
def Merging.Astray (o : Tree) (ids : List NodeId) (P : Tree → Prop) : Prop :=
  ∃ v id, P v ∧ id ∈ ids ∧ v.find? (o.fqn id) = none ∧
    ∃ e v', (ensureParent (o.fqn id) (QualifiedName.parent? (o.fqn id))).on v = (.error e, v')

/-- **A run of the merge keeps what each of its changes keeps**: payloads declared on nodes, parents made, subtrees
grafted.  If a node is foreign to it, a base of which that holds has no place for one. -/
theorem mergeNodes_run {P : Tree → Prop}
    (hdeclare : ∀ {v : Tree} {id x : Nat} {m : Payload}, P v → id ∈ ids → (o.node id).autogenerated = false →
      v.find? (o.fqn id) = some x →
      Payload.refine r (v.node x).payload (o.node id).payload = .ok m → P (v.declareAt x m))
    (hensure : ∀ {v v' : Tree} {fqn : String} {parent : Option String} {found : Except OverlayError NodeId}, P v →
      (ensureParent fqn parent).on v = (found, v') → P v')
    (hgraft : ∀ {v v' : Tree} {fqn : String} {parent : Option String} {id x : Nat}, P v → id ∈ ids →
      (ensureParent fqn parent).on v = (.ok x, v') → P (v'.withForest (v'.graft o.toForest id x).1))
    {result : Except OverlayError MergeStats} (h : P u) (hon : (mergeNodes r o stats grafted ids).on u = (result, u')) :
    P u' ∧ ∀ f n, result = .error (.foreignRoot f n) → Merging.Astray o ids P := by
  induction ids generalizing u stats grafted with
  | nil =>
    cases hon
    exact ⟨h, by simp⟩
  | cons id ids ih =>
    -- the rest of the run is the same statement from a later state
    have hnext {v : Tree} {stats : MergeStats} {grafted : List NodeId} (h : P v)
        (hon : (mergeNodes r o stats grafted ids).on v = (result, u')) :
        P u' ∧ ∀ f n, result = .error (.foreignRoot f n) → Merging.Astray o (id :: ids) P := by
      obtain ⟨hu', hastray⟩ := ih (fun h hid => hdeclare h (List.mem_cons_of_mem _ hid))
        (fun h hid => hgraft h (List.mem_cons_of_mem _ hid)) h hon
      refine ⟨hu', fun f n hforeign => ?_⟩
      obtain ⟨w, y, hw, hy, hrest⟩ := hastray f n hforeign
      exact ⟨w, y, hw, List.mem_cons_of_mem id hy, hrest⟩
    by_cases hgrafted : id ∈ grafted
    · rw [mergeNodes_grafted hgrafted] at hon
      exact hnext h hon
    cases hauto : (o.node id).autogenerated with
    | true =>
      rw [mergeNodes_auto hgrafted hauto] at hon
      exact hnext h hon
    | false =>
      cases hfind : u.find? (o.fqn id) with
      | some x =>
        rw [mergeNodes_overwrite hgrafted hauto hfind] at hon
        split at hon
        · rename_i hm
          exact hnext (hdeclare h List.mem_cons_self hauto hfind hm) hon
        · cases hon
          exact ⟨h, by simp⟩
      | none =>
        rcases hparent : (ensureParent (o.fqn id) (QualifiedName.parent? (o.fqn id))).on u with ⟨e | x, u₁⟩
        · rw [mergeNodes_nowhere hgrafted hauto hfind hparent] at hon
          cases hon
          exact ⟨hensure h hparent, fun _ _ _ => ⟨u, id, h, List.mem_cons_self, hfind, e, u', hparent⟩⟩
        · rw [mergeNodes_add hgrafted hauto hfind hparent] at hon
          exact hnext (hgraft h List.mem_cons_self hparent) hon

/-! ## The base afterwards -/

theorem sameShape_declareAt (x : Nat) (p : Payload) : Forest.SameShape x u.toForest (u.declareAt x p).toForest :=
  Forest.sameShape_declare p

theorem Rooted.declareAt (hu : u.Rooted) (x : Nat) (p : Payload) : (u.declareAt x p).Rooted :=
  have hshape := sameShape_declareAt (u := u) x p
  ⟨hshape.linked hu.linked, (hshape.parent? _).trans hu.root_top, hu.root_lt_count.trans_eq hshape.count.symm⟩

theorem childrenNodup_declareAt (hu : u.ChildrenNodup) (x : Nat) (p : Payload) : (u.declareAt x p).ChildrenNodup :=
  Forest.childrenNodup_modify hu fun _ hn => hn

theorem contents_declareAt (hu : u.Rooted) (hs : u.SiblingsDiffer) (hx : u.Route u.root q x) (s : List String) :
    (u.declareAt x p).contents s = if s = q then some ⟨p, false⟩ else u.contents s := by
  have hshape := sameShape_declareAt (u := u) x p
  have hs' : (u.declareAt x p).SiblingsDiffer := hshape.distinct hs
  by_cases hq : s = q
  · subst hq
    rw [if_pos rfl, contents, Forest.content?_of_route (hshape.linked hu.linked) hs' (hshape.route_iff.2 hx),
      declareAt, withForest]
    exact congrArg some (congrArg Node.content (Forest.node_modify_self _ (hx.lt_count hu.root_lt_count)))
  · rw [if_neg hq]
    refine Option.ext fun c => ?_
    rw [contents, Forest.content?_eq_some (hshape.linked hu.linked) hs', contents, Forest.content?_eq_some hu.linked hs]
    simp only [hshape.route_iff]
    refine exists_congr fun y => and_congr_right fun hy => ?_
    rw [hshape.other (by rintro rfl; exact hq (hu.linked.route_unique hy hx))]

theorem missing_of_route (hu : u.Rooted) (hs : u.SiblingsDiffer) (hx : u.Route u.root q x) :
    u.contents.missing q = fun _ => none := by
  funext s
  refine if_neg fun ⟨⟨r, hr⟩, hnone⟩ => ?_
  obtain ⟨y, hy, -⟩ := (hr ▸ hx).of_append
  rw [contents, Forest.content?_of_route hu.linked hs hy] at hnone
  cases hnone

theorem ensure_of_segments (hname : QualifiedName.segments name = u.rootName :: q) :
    u.ensure name = ((u.ensureBelow u.root q).1, some (u.ensureBelow u.root q).2) := by
  rw [ensure, hname]
  exact if_pos rfl

theorem ensure_of_first_ne (hne : QualifiedName.first name ≠ u.rootName) : u.ensure name = (u, none) := by
  rw [ensure]
  cases hs : QualifiedName.segments name with
  | nil => rfl
  | cons first rest => exact if_neg (QualifiedName.first_of_segments hs ▸ hne)

theorem ensureParent_on (fqn : String) (hu : u.Rooted) (hs : u.SiblingsDiffer)
    (hname : QualifiedName.segments name = u.rootName :: q) :
    ∃ x u', (ensureParent fqn (some name)).on u = (.ok x, u') ∧ Ensured u.root q u (u', x) := by
  rw [ensureParent, merging_get_bind]
  cases hfind : u.find? name with
  | some x =>
    have hx := (find?_eq_some hu.linked hs hname).1 hfind
    refine ⟨x, u, ?_, rfl, (Forest.Filled.refl hu.linked hs).of_eq (missing_of_route hu hs hx).symm, id, hx⟩
    dsimp only
    rw [hfind]
    rfl
  | none =>
    refine ⟨_, _, ?_, ensured_ensureBelow hu.linked hs hu.root_lt_count⟩
    dsimp only
    rw [hfind, ensure_of_segments hname]
    rfl

/-- **Every base has a parent below its root**, or makes it. -/
theorem ensureParent_ok (fqn : String) (hname : QualifiedName.segments name = u.rootName :: q) :
    ∃ x u', (ensureParent fqn (some name)).on u = (.ok x, u') := by
  rw [ensureParent, merging_get_bind]
  cases hfind : u.find? name with
  | some x =>
    dsimp only
    rw [hfind]
    exact ⟨x, u, rfl⟩
  | none =>
    dsimp only
    rw [hfind, ensure_of_segments hname]
    exact ⟨_, _, rfl⟩

theorem ensureParent_foreign (hne : QualifiedName.first fqn ≠ u.rootName) :
    (ensureParent fqn (QualifiedName.parent? fqn)).on u = (.error (.foreignRoot fqn u.rootName), u) := by
  rw [ensureParent, merging_get_bind]
  cases hparent : QualifiedName.parent? fqn with
  | none => rfl
  | some name =>
    rw [QualifiedName.first_of_parent? hparent] at hne
    dsimp only
    rw [find?_of_first_ne hne, ensure_of_first_ne hne]
    rfl

end Tree
end SignalCatalog
