import SignalCatalog.Proofs.Expand.Joining
import SignalCatalog.Proofs.Expand.Paths
import SignalCatalog.Proofs.Expand.Steps
/-!
# Sketches of instances

Making the instances of a branch merges them into its sketch, level by level, and fails just when the sketch shows a
node in the way.
-/
namespace SignalCatalog

namespace Sketch

variable {proto : Payload} {names : List String} {b : Sketch} {kids : String → List (Nat × Sketch)}
  {name : String} {d : Nat}

def ofInstance (proto : Payload) : Sketch := ⟨⟨proto, false⟩, {}, fun _ => []⟩

/-- Whether the first children of some names are branches, where there are any. -/
def clear (names : List String) (kids : String → List (Nat × Sketch)) : Bool :=
  names.all fun name => (kids name).head?.all fun e => decide (e.2.content.payload.kind = .branch)

/-- **The instances of one level below one node**, if nothing is in the way. -/
def row (proto : Payload) (names : List String) : (depth : Nat) → Sketch → Option Sketch
  | 0, b => some b
  | depth + 1, b =>
    if clear names b.kids then some (b.splice (depth + 1) fun name =>
      List.replicate (names.count name) (ofInstance proto)) else none

/-- **The instances of all levels**, from the nodes at some paths inwards. -/
def instances (proto : Payload) (depth : Nat) :
    List (List String) → (frontier : List (List String)) → Sketch → Option Sketch
  | [], _, b => some b
  | names :: rest, frontier, b => do
    instances proto depth rest (Level.frontier names frontier)
      (← frontier.foldlM (fun b path => b.reach (row proto names) depth path) b)

theorem row_succ : row proto names (d + 1) b =
    if clear names b.kids then some (b.splice (d + 1) fun name => List.replicate (names.count name) (ofInstance proto))
    else none := rfl

theorem clear_cons : clear (name :: names) kids = (clear [name] kids && clear names kids) := by simp [clear]

theorem kind_join {t : Sketch} (ht : t.content.payload.kind = .branch) {l : List (Nat × Sketch)}
    (hl : l.head?.all (fun e => decide (e.2.content.payload.kind = .branch)) = true) :
    (join d l t).head?.all (fun e => decide (e.2.content.payload.kind = .branch)) = true := by
  cases l with
  | nil => cases d <;> simpa [join, copy] using ht
  | cons e r =>
    have hcontent : ((e.2.fill t.content).splice d t.listed).content = t.content.onto (some e.2.content) := by
      cases d <;> rfl
    simp only [List.head?_cons, Option.all_some, decide_eq_true_eq] at hl
    simp only [join, List.head?_cons, Option.all_some, decide_eq_true_eq, hcontent]
    rw [Content.onto]
    split
    · exact ht
    · exact hl

theorem clear_join {t : Sketch} (ht : t.content.payload.kind = .branch) (hname : clear [name] kids = true) :
    clear names (Function.update kids name (join d (kids name) t)) = clear names kids := by
  have hname : (kids name).head?.all (fun e => decide (e.2.content.payload.kind = .branch)) = true := by
    simpa [clear] using hname
  rw [clear, clear]
  congr 1
  funext s
  by_cases hs : s = name
  · subst hs
    rw [Function.update_self, kind_join ht hname, hname]
  · rw [Function.update_of_ne hs]

end Sketch

namespace Tree

variable {t t' u : Tree} {duty : NodeId → Duty} {n p x c d D : Nat} {proto : Payload}
  {name : String} {names : List String} {levels Ps : List (List String)} {ids ps : List NodeId}
  {q : List String} {e : ExpansionError}

theorem clear_kids (f : Forest) (d : Nat) :
    Sketch.clear names (f.kids duty d p) = Sketch.clear names (f.kids duty 0 p) := by
  rw [Sketch.clear, Sketch.clear]
  congr 1
  funext s
  simp only [Forest.kids, List.head?_map, Option.all_map, Forest.content_sketch]

/-! ## One node -/

def instanceItems (proto : Payload) (names : List String) : List (String × (Nat → Sketch)) :=
  names.map fun name => (name, fun _ => .ofInstance proto)

theorem under_instanceItems (D : Nat) :
    Forest.under (instanceItems proto names) D = fun name => List.replicate (names.count name) (.ofInstance proto) := by
  funext name
  induction names with
  | nil => rfl
  | cons first names ih =>
    rw [instanceItems, List.map_cons, Forest.under_cons, show names.map _ = instanceItems proto names from rfl, ih]
    by_cases hname : first = name
    · simp [hname, List.replicate_succ]
    · simp [hname]

theorem copies_addChild {f : Forest} {m : Node} (hm : m.alone = m) (hf : f.Linked) (hp : p < f.count) :
    Forest.Copies ⟨#[m]⟩ [0] p f (f.addChild p m).1 [f.count] := by
  have hchildren (x : Nat) : Forest.children ⟨#[m]⟩ x = [] := by
    by_cases hx : x = 0
    · subst hx
      exact congrArg Node.children hm.symm
    · exact Forest.children_of_count_le (Nat.pos_of_ne_zero hx)
  have hparent (x : Nat) : Forest.parent? ⟨#[m]⟩ x = none := by
    by_cases hx : x = 0
    · subst hx
      exact congrArg Node.parent hm.symm
    · exact Forest.parent?_of_count_le (Nat.pos_of_ne_zero hx)
  have hlinked : Forest.Linked ⟨#[m]⟩ := ⟨by simp [hchildren, hparent], ⟨fun _ => 0, by simp [hparent]⟩⟩
  have htidy : Forest.Tidy ⟨#[m]⟩ := fun x name => by
    rw [Forest.named, hchildren]
    exact grouped_of_nodup .nil
  have hdepth : ∀ q x, Forest.Route ⟨#[m]⟩ 0 q x → q.length ≤ 0 := fun q x hq => by
    cases hq with
    | here => exact Nat.le_refl 0
    | down _ hc => rw [hparent] at hc; cases hc
  have := Forest.copies_graftWithin hlinked htidy hdepth hf hp
  rwa [Forest.graftWithin, show (Forest.node ⟨#[m]⟩ 0).alone = m from hm] at this

theorem instanceNode_hindered (proto : Payload) (htidy : t.Tidy)
    (hclear : Sketch.clear [name] (t.kids duty 0 p) = false) :
    ∃ e, (instanceNode proto p name).on t = (.error e, t) := by
  rw [instanceNode_on]
  cases hc : t.childNamed? p name with
  | none => simp [Sketch.clear, Forest.kids_eq_nil hc] at hclear
  | some c =>
    obtain ⟨k, r, -, hkids⟩ := htidy.kids_eq hc duty 0
    have hkind : (t.node c).payload.kind ≠ .branch := by
      simpa [Sketch.clear, hkids, Forest.sketch, Node.content] using hclear
    dsimp only
    rw [if_neg hkind]
    exact ⟨_, rfl⟩

theorem instanceNode_joins (proto : Payload) (ht : t.Linked) (htidy : t.Tidy) (hp : p < t.count)
    (hduty : ∀ x, t.count ≤ x → duty x = {}) (hclear : Sketch.clear [name] (t.kids duty 0 p) = true) :
    ∃ c t', (instanceNode proto p name).on t = (.ok c, t') ∧
      t'.root = t.root ∧ Forest.Joins duty p name (fun _ => .ofInstance proto) t.toForest t'.toForest c := by
  rw [instanceNode_on]
  cases hc : t.childNamed? p name with
  | none =>
    have hcopy := copies_addChild (m := { name, payload := proto }) rfl ht hp
    refine ⟨_, _, rfl, rfl, hcopy.joins ht hc (fun _ => {}) htidy hp hduty fun D => ?_⟩
    cases D <;> rfl
  | some c =>
    have hlt := Forest.lt_count_of_parent? (ht.mem_childNamed? hc).1
    obtain ⟨k, r, -, hkids⟩ := htidy.kids_eq hc duty 0
    have hkind : (t.node c).payload.kind = .branch := by
      simpa [Sketch.clear, hkids, Forest.sketch, Node.content] using hclear
    dsimp only
    rw [if_pos hkind]
    have hgrown := Forest.grown_declareIf (e := c) ht proto
    have hnamed := Forest.named_declareIf t.toForest c proto
    refine ⟨c, _, rfl, rfl, Forest.joins_of_spliced (fun _ _ => []) ht htidy hc hgrown (.of_named hnamed)
      (fun d _ => Forest.sketch_declareIf ht hlt rfl) ⟨.refl hgrown.linked, htidy.of_named hnamed, .refl,
        fun d D _ => ?_⟩ fun _ => rfl⟩
    exact (Sketch.splice_nil _ d).symm

/-- **A row of instances** comes in below what has come in before, if nothing is in the way. -/
theorem instanceRow_gathers (names : List String) {f : Forest} {items : List (String × (Nat → Sketch))}
    {es : List NodeId} (hproto : proto.kind = .branch) (hf : f.Linked) (hp : p < f.count)
    (hduty : ∀ x, f.count ≤ x → duty x = {}) (hg : Forest.Gathers duty p items f t.toForest es) :
    if Sketch.clear names (t.kids duty 0 p) then
      ∃ ids t', (instanceRow proto p names).on t = (.ok ids, t') ∧ t'.root = t.root ∧
        Forest.Gathers duty p (items ++ instanceItems proto names) f t'.toForest (es ++ ids)
    else ∃ e t', (instanceRow proto p names).on t = (.error e, t') := by
  induction names generalizing t items es with
  | nil => exact ⟨[], t, rfl, rfl, by rwa [instanceItems, List.map_nil, List.append_nil, List.append_nil]⟩
  | cons name names ih =>
    rw [Sketch.clear_cons]
    cases hname : Sketch.clear [name] (t.kids duty 0 p) with
    | false =>
      obtain ⟨e, he⟩ := instanceNode_hindered proto hg.tidy hname
      exact ⟨e, t, on_bind_error he⟩
    | true =>
      obtain ⟨c, t₁, hon, hroot, hjoins⟩ := instanceNode_joins proto hg.grown.linked hg.tidy
        (Nat.lt_of_lt_of_le hp hg.grown.count_le) (fun x hx => hduty x (Nat.le_trans hg.grown.count_le hx)) hname
      have hrest := ih (hg.snoc hf hjoins)
      rw [hjoins.kids 0 0 (Nat.le_refl 0), Sketch.clear_join hproto hname] at hrest
      rw [Bool.true_and]
      split at hrest
      · rename_i hnames
        obtain ⟨ids, t', hon', hroot', hg'⟩ := hrest
        rw [if_pos hnames]
        refine ⟨c :: ids, t', ?_, hroot'.trans hroot, ?_⟩
        · rw [instanceRow, on_bind_ok hon, on_bind_ok hon']
          rfl
        · rw [List.append_assoc, List.append_assoc] at hg'
          exact hg'
      · rename_i hnames
        obtain ⟨e, t', hon'⟩ := hrest
        rw [if_neg hnames]
        refine ⟨e, t', ?_⟩
        rw [instanceRow, on_bind_ok hon, on_bind_error hon']

/-! ## Below a branch -/

/-- **New nodes below a branch**, and nothing else. -/
structure Planted (n : Nat) (t t' : Tree) : Prop where
  grown : Forest.Grown n t.toForest t'.toForest
  tidy : t'.Tidy
  keeps : Forest.Retains t.toForest t'.toForest
  same_root : t'.root = t.root

theorem Planted.trans (h : Planted n t u) (ht : t.Linked) (h' : Planted n u t') : Planted n t t' where
  grown := h.grown.trans ht h'.grown
  tidy := h'.tidy
  keeps := h.keeps.trans h'.keeps
  same_root := h'.same_root.trans h.same_root

/-- Nodes that stand at some paths below a branch. -/
abbrev StandAt (t : Tree) (n : NodeId) (paths : List (List String)) (ids : List NodeId) : Prop :=
  List.Forall₂ (fun q x => t.descend? n q = some x) paths ids

theorem StandAt.keep (h : t.StandAt n Ps ps) (hkeeps : Forest.Retains t.toForest t'.toForest) : t'.StandAt n Ps ps :=
  h.imp fun _ _ hq => hkeeps.descend? hq

/-- **What a step that makes instances does to the sketch of the branch**: a change of it, or a failure that shows at
some depth. -/
inductive Traced (duty : NodeId → Duty) (n : Nat) (t : Tree) (change : Nat → Sketch → Option Sketch)
    (ends : List (List String)) : Except ExpansionError (List NodeId) × Tree → Prop
  | ok {ids : List NodeId} {t' : Tree} : Planted n t t' → t'.StandAt n ends ids →
      (∀ d, change d (t.sketch duty d n) = some (t'.sketch duty d n)) → Traced duty n t change ends (.ok ids, t')
  | error {e : ExpansionError} {t' : Tree} (d : Nat) : change d (t.sketch duty d n) = none →
      Traced duty n t change ends (.error e, t')

/-- The state in which instances are made below a branch. -/
structure Fertile (duty : NodeId → Duty) (n : Nat) (t : Tree) : Prop where
  linked : t.Linked
  tidy : t.Tidy
  lt_count : n < t.count
  duty : ∀ x, t.count ≤ x → duty x = {}

theorem Fertile.planted (h : t.Fertile duty n) (hp : Planted n t t') : t'.Fertile duty n where
  linked := hp.grown.linked
  tidy := hp.tidy
  lt_count := Nat.lt_of_lt_of_le h.lt_count hp.grown.count_le
  duty := fun x hx => h.duty x (Nat.le_trans hp.grown.count_le hx)

theorem instanceRow_traced (names : List String) (h : t.Fertile duty n) (hproto : proto.kind = .branch)
    (hq : t.descend? n q = some p) :
    Traced duty n t (fun d b => b.reach (Sketch.row proto names) d q) (names.map fun name => q ++ [name])
      ((instanceRow proto p names >>= fun ids => change (fun f => f.reorder p ids) >>= fun _ => pure ids).on t) := by
  have hroute := h.linked.route_of_descend? hq
  have hp := hroute.lt_count h.lt_count
  have hrow := instanceRow_gathers names hproto h.linked hp h.duty (.nil h.linked h.tidy)
  simp only [List.nil_append] at hrow
  split at hrow
  · rename_i hclear
    obtain ⟨ids, u, hon, hroot, hg⟩ := hrow
    rw [on_bind_ok hon]
    have hs := hg.spliced h.linked
    refine Traced.ok (show Planted n t (u.withForest (u.reorder p ids)) from ⟨hs.grown.mono ⟨q, hroute⟩, hs.tidy,
      hs.keeps, hroot⟩) ?_ fun d => ?_
    · have hfound := hg.found
      rw [instanceItems, List.forall₂_map_left_iff] at hfound
      rw [StandAt, List.forall₂_map_left_iff]
      exact hfound.imp fun name e he => Forest.descend?_snoc (hs.keeps.descend? hq)
        ((hg.childNamed?_reorder name).trans he)
    · refine hs.grown.reach h.tidy hq h.linked (N := d) (fun d' _ => ?_) (Nat.le_refl d)
      rw [show (u.withForest (u.reorder p ids)).sketch duty d' p = _ from hs.sketch d' d' (by omega),
        under_instanceItems]
      cases d' with
      | zero => rfl
      | succ d' =>
        rw [Forest.sketch_succ, Sketch.row_succ, if_pos ((clear_kids _ d').trans hclear)]
  · rename_i hclear
    obtain ⟨e, u, hon⟩ := hrow
    rw [on_bind_error hon]
    refine .error _ (Forest.reach_eq_none (d := 1) h.tidy hq ?_)
    rw [Forest.sketch_succ, Sketch.row_succ, if_neg hclear]

theorem Traced.bind {m : Expanding (List NodeId)} {k : List NodeId → Expanding (List NodeId)}
    {first rest : Nat → Sketch → Option Sketch} {ends ends' : List (List String)} (ht : t.Linked)
    (hm : Traced duty n t first ends (m.on t))
    (hk : ∀ ids u, Planted n t u → u.StandAt n ends ids → Traced duty n u rest ends' ((k ids).on u)) :
    Traced duty n t (fun d b => first d b >>= rest d) ends' ((m >>= k).on t) := by
  rcases hon : m.on t with ⟨e | ids, u⟩
  · rw [hon] at hm
    rw [on_bind_error hon]
    cases hm with
    | error d h => exact .error d (by rw [h]; rfl)
  · rw [hon] at hm
    rw [on_bind_ok hon]
    cases hm with
    | ok hplanted hstand hsketch =>
      have hrest := hk ids u hplanted hstand
      generalize (k ids).on u = r at hrest
      cases hrest with
      | ok hplanted' hstand' hsketch' =>
        exact .ok (hplanted.trans ht hplanted') hstand' fun d => by rw [hsketch d]; exact hsketch' d
      | error d h => exact .error d (by rw [hsketch d]; exact h)

theorem Traced.append {m : Expanding (List NodeId)} {change : Nat → Sketch → Option Sketch}
    {ends ends' : List (List String)} (hm : Traced duty n t change ends' (m.on t)) (hids : t.StandAt n ends ids) :
    Traced duty n t change (ends ++ ends') ((m >>= fun rest => pure (ids ++ rest)).on t) := by
  rcases hon : m.on t with ⟨e | rest, u⟩
  · rw [hon] at hm
    rw [on_bind_error hon]
    cases hm with
    | error d h => exact .error d h
  · rw [hon] at hm
    rw [on_bind_ok hon]
    cases hm with
    | ok hplanted hstand hsketch => exact .ok hplanted (List.rel_append (hids.keep hplanted.keeps) hstand) hsketch

theorem instanceLevel_cons : instanceLevel proto names (p :: ps) =
    (instanceRow proto p names >>= fun ids => change (fun f => f.reorder p ids) >>= fun _ => pure ids) >>= fun row =>
      instanceLevel proto names ps >>= fun rest => pure (row ++ rest) := by
  rw [instanceLevel]
  simp only [bind_assoc, pure_bind]

theorem instanceLevel_traced (h : t.Fertile duty n) (hproto : proto.kind = .branch) (hps : t.StandAt n Ps ps) :
    Traced duty n t (fun d b => Ps.foldlM (fun b q => b.reach (Sketch.row proto names) d q) b) (Level.frontier names Ps)
      ((instanceLevel proto names ps).on t) := by
  induction Ps generalizing t ps with
  | nil =>
    cases hps
    exact .ok ⟨.refl h.linked, h.tidy, .refl, rfl⟩ .nil fun _ => rfl
  | cons q Ps ih =>
    obtain ⟨p, ps, hq, hrest, rfl⟩ := List.forall₂_cons_left_iff.1 hps
    rw [instanceLevel_cons]
    have htraced := (instanceRow_traced names h hproto hq).bind h.linked fun ids u hplanted hids =>
      (ih (h.planted hplanted) (StandAt.keep hrest hplanted.keeps)).append hids
    simpa only [List.foldlM_cons, Level.frontier, List.flatMap_cons] using htraced

/-- **The instances of all levels**, traced through the sketch of the branch. -/
theorem instanceLevels_traced (h : t.Fertile duty n) (hproto : levels ≠ [] → proto.kind = .branch)
    (hps : t.StandAt n Ps ps) :
    Traced duty n t (fun d b => b.instances proto d levels Ps) (Level.leaves levels Ps)
      ((instanceLevels proto levels ps).on t) := by
  induction levels generalizing t Ps ps with
  | nil => exact .ok ⟨.refl h.linked, h.tidy, .refl, rfl⟩ hps fun _ => rfl
  | cons names levels ih =>
    exact (instanceLevel_traced h (hproto (by simp)) hps).bind h.linked fun ids u hplanted hids =>
      ih (h.planted hplanted) (fun _ => hproto (by simp)) hids

end Tree
end SignalCatalog
