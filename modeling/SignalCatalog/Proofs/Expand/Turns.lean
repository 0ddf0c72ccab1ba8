import SignalCatalog.Proofs.Expand.Sketched
import SignalCatalog.Proofs.Forest.Alike
/-!
# The sketch of a pass

A pass gives each node a turn for every time the pre-order lists it.  A node that is pending is expanded in its turn,
its children get their turns after it, and what is cut off gets none.  Turns below different children do not meet, so
what a pass makes of a tree can be told from its sketch.
-/
namespace SignalCatalog

namespace Sketch

/-- What a node becomes at the beginning of its turn. -/
def begun (depth : Nat) (b : Sketch) : Option Sketch := if b.duty.due then b.expand depth else some b

/-- **A node after its turn**, if nothing fails: the children that are owed turns have had theirs. -/
def visited : (depth : Nat) → Sketch → Sketch
  | 0, b => (b.begun 0).getD b
  | depth + 1, b =>
    let now := (b.begun (depth + 1)).getD b
    { now with kids := fun name => (now.kids name).map fun e => (e.1, (visited depth)^[e.2.duty.times] e.2) }

/-- **Nothing fails in the turn of a node**, as far as the sketch shows. -/
def Passable : (depth : Nat) → Sketch → Prop
  | 0, b => b.begun 0 ≠ none
  | depth + 1, b => ∃ now, b.begun (depth + 1) = some now ∧
    ∀ name, ∀ e ∈ now.kids name, ∀ k < e.2.duty.times, Passable depth ((visited depth)^[k] e.2)

theorem not_passable_of_begun {depth : Nat} {b : Sketch} (h : b.begun depth = none) : ¬ b.Passable depth := by
  cases depth with
  | zero => exact fun hpass => hpass h
  | succ depth =>
    rintro ⟨now, hnow, -⟩
    rw [h] at hnow
    cases hnow

end Sketch

namespace Tree

variable {s t u v w : Tree} {c k n p x y d D : Nat} {q : List String} {name : String} {cs ids rest : List NodeId}
  {stats stats' : ExpansionStats}

/-- **What a pass over a tree owes to its nodes.** -/
def duties (s : Tree) (c : NodeId) : Duty :=
  if c < s.count then
    { due := !(s.node c).payload.instances.isEmpty
      times := (s.parent? c).elim 0 fun p => (s.children p).count c }
  else {}

/-- **A tree under a pass**: nodes that were there at the start have kept their parents or are cut off. -/
structure Midway (s u : Tree) : Prop where
  orderly : u.Orderly
  same_root : u.root = s.root
  count_le : s.count ≤ u.count
  parent? : ∀ x < s.count, u.parent? x = s.parent? x ∨ u.parent? x = none

structure Worked (x : Nat) (u v : Tree) : Prop where
  count_le : u.count ≤ v.count
  name : ∀ {y : Nat}, y < u.count → (v.node y).name = (u.node y).name
  outside : ∀ {y : Nat}, y < u.count → ¬ u.Below x y → v.node y = u.node y
  back : ∀ {b y : Nat}, y < u.count → v.Below b y → u.Below b y

namespace Worked

theorem refl : Worked x u u := ⟨Nat.le_refl _, fun _ => rfl, fun _ _ => rfl, fun _ h => h⟩

theorem trans (h : Worked x u v) (h' : Worked x v w) : Worked x u w where
  count_le := Nat.le_trans h.count_le h'.count_le
  name := fun hy => (h'.name (Nat.lt_of_lt_of_le hy h.count_le)).trans (h.name hy)
  outside :=
    fun hy hx => (h'.outside (Nat.lt_of_lt_of_le hy h.count_le) fun hb => hx (h.back hy hb)).trans (h.outside hy hx)
  back := fun hy hb => h.back hy (h'.back (Nat.lt_of_lt_of_le hy h.count_le) hb)

theorem mono (h : Worked c u v) (hc : u.Below x c) : Worked x u v where
  count_le := h.count_le
  name := h.name
  outside := fun hy hx => h.outside hy fun hb => hx (hc.trans hb)
  back := h.back

theorem of_done (h : BranchDone x u v) (hu : u.Linked) : Worked x u v := by
  obtain ⟨cs, hre⟩ := h.regrown
  exact ⟨hre.count_le, fun hy => hre.name hy, fun hy hx => hre.outside hu hy hx,
    fun hy ⟨_, hr⟩ => ⟨_, hre.route_back hu hy hr⟩⟩

variable {duty : NodeId → Duty}

theorem sketch_of_apart (h : Worked x u v) (hu : u.Linked) (hy : y < u.count) (hapart : u.Apart y x) :
    v.sketch duty d y = u.sketch duty d y :=
  Forest.sketch_congr hu fun _ hz => .of_eq (h.outside (hz.lt_count hy) (hapart hz))

theorem node_parent (h : Worked c u v) (hu : u.Linked) (hc : u.parent? c = some x) : v.node x = u.node x :=
  h.outside (hu.lt_count_parent hc) (hu.not_below_parent hc)

end Worked

theorem Midway.done (h : Midway s u) (hdone : BranchDone x u v) (htidy : v.Tidy) : Midway s v := by
  obtain ⟨cs, hre⟩ := hdone.regrown
  refine ⟨⟨hdone.rooted h.orderly.toRooted, htidy⟩, hdone.same_root.trans h.same_root,
    Nat.le_trans h.count_le hre.count_le, fun y hy => ?_⟩
  rw [hre.parent? (Nat.lt_of_lt_of_le hy h.count_le)]
  split
  · exact .inr rfl
  · exact h.parent? y hy

theorem Midway.parent?_eq (h : Midway s u) (hc : c < s.count) (hp : u.parent? c = some p) : s.parent? c = some p := by
  rcases h.parent? c hc with hsame | hnone
  · rw [← hsame, hp]
  · rw [hp] at hnone
    cases hnone

theorem Midway.duties_of_count_le (h : Midway s u) (hx : u.count ≤ x) : s.duties x = {} :=
  if_neg (Nat.not_lt.2 (Nat.le_trans h.count_le hx))

theorem Midway.times_eq (h : Midway s u) (hs : s.Linked) (hc : u.parent? c = some p) :
    (s.duties c).times = (s.children p).count c := by
  by_cases hlt : c < s.count
  · rw [duties, if_pos hlt]
    dsimp only
    rw [h.parent?_eq hlt hc]
    rfl
  · rw [duties, if_neg hlt, List.count_eq_zero.2 fun hmem => hlt (Forest.lt_count_of_parent? (hs.mem_children.1 hmem))]

theorem Midway.parent?_of_below (h : Midway s u) (hs : s.Rooted) (hc : s.parent? c = some x)
    (hroot : u.Below u.root c) :
    u.parent? c = some x := by
  obtain ⟨q, hq⟩ := hroot
  cases hq with
  | here =>
    rw [h.same_root, hs.root_top] at hc
    cases hc
  | down _ hc' => rw [hc', ← h.parent?_eq (Forest.lt_count_of_parent? hc) hc', hc]

theorem Rooted.below_parent (h : u.Rooted) (hc : u.parent? c = some x) (hroot : u.Below u.root c) :
    u.Below u.root x := by
  obtain ⟨q, hq⟩ := hroot
  cases hq with
  | here =>
    rw [h.root_top] at hc
    cases hc
  | down hq hc' =>
    rw [hc] at hc'
    cases hc'
    exact ⟨_, hq⟩

theorem Midway.below_of_below (h : Midway s u) (hs : s.Rooted) (hy : s.Below x y) (hroot : u.Below u.root y) :
    u.Below u.root x := by
  obtain ⟨r, hr⟩ := hy
  induction hr with
  | here => exact hroot
  | down _ hc ih => exact ih (h.orderly.below_parent (h.parent?_of_below hs hc hroot) hroot)

/-! ## One node -/

/-- **What some turns do to a tree**: they work on it, or one of them fails. -/
inductive Turns (s : Tree) (x : Nat) (ids : List NodeId) (u : Tree) (failing : Prop) (holds : Tree → Prop) : Prop
  | done {v : Tree} : Midway s v → Worked x u v → v.Below v.root x → holds v →
      (∀ stats rest, ∃ stats', (expandPass stats (ids ++ rest)).on u = (expandPass stats' rest).on v) →
      Turns s x ids u failing holds
  | failed : failing → (∀ stats rest, ∃ e v, (expandPass stats (ids ++ rest)).on u = (.error e, v)) →
      Turns s x ids u failing holds

namespace Turns

variable {failing failing' : Prop} {holds holds' : Tree → Prop} {jds : List NodeId}

theorem imp (h : Turns s x ids u failing holds) (hfail : failing → failing')
    (hholds : ∀ v, Midway s v → Worked x u v → holds v → holds' v) : Turns s x ids u failing' holds' := by
  cases h with
  | done hv hwork hroot hh hrun => exact .done hv hwork hroot (hholds _ hv hwork hh) hrun
  | failed hf hrun => exact .failed (hfail hf) hrun

theorem up (h : Turns s c ids u failing holds) (hu : u.Rooted) (hc : u.parent? c = some x) :
    Turns s x ids u failing holds := by
  cases h with
  | @done v hv hwork hroot hh hrun =>
    have hmem : c ∈ v.children x := by
      rw [Forest.children, hwork.node_parent hu.linked hc]
      exact hu.linked.mem_children.2 hc
    exact .done hv (hwork.mono (Forest.Below.refl.down hc))
      (hv.orderly.below_parent (hv.orderly.linked.mem_children.1 hmem) hroot) hh hrun
  | failed hf hrun => exact .failed hf hrun

theorem append (h : Turns s x ids u failing holds)
    (hrest : ∀ v, Midway s v → v.Below v.root x → holds v → Turns s x jds v failing holds') :
    Turns s x (ids ++ jds) u failing holds' := by
  cases h with
  | @done v hv hwork hroot hh hrun =>
    cases hrest v hv hroot hh with
    | done hw hwork' hroot' hh' hrun' =>
      refine .done hw (hwork.trans hwork') hroot' hh' fun stats rest => ?_
      obtain ⟨stats', hone⟩ := hrun stats (jds ++ rest)
      obtain ⟨stats'', htwo⟩ := hrun' stats' rest
      exact ⟨stats'', by rw [List.append_assoc, hone, htwo]⟩
    | failed hf hrun' =>
      refine .failed hf fun stats rest => ?_
      obtain ⟨stats', hone⟩ := hrun stats (jds ++ rest)
      obtain ⟨e, w, htwo⟩ := hrun' stats' rest
      exact ⟨e, w, by rw [List.append_assoc, hone, htwo]⟩
  | failed hf hrun => exact .failed hf fun stats rest => by rw [List.append_assoc]; exact hrun stats (jds ++ rest)

theorem skip (hu : Midway s u) (hroot : u.Below u.root x) (h : ∀ y ∈ ids, ¬ u.Below u.root y) (hh : holds u) :
    Turns s x ids u failing holds :=
  .done hu .refl hroot hh fun stats rest => ⟨stats, expandPass_skip (fun y hy => Bool.eq_false_iff.2 fun hin =>
    h y hy ((isAttached_iff hu.orderly.linked hu.orderly.root_top).1 hin)) rest⟩

end Turns

abbrev Turn (s : Tree) (x : Nat) (ids : List NodeId) (u : Tree) : Prop :=
  Turns s x ids u (∃ d, ¬ (u.sketch s.duties d x).Passable d) fun v =>
    ∀ d, (u.sketch s.duties d x).Passable d ∧ (u.sketch s.duties d x).visited d = v.sketch s.duties d x

theorem turns_begun (hu : Midway s u) (hattached : u.Below u.root x) :
    Turns s x (if (s.duties x).due then [x] else []) u (∃ d, (u.sketch s.duties d x).begun d = none) fun v =>
      ∀ d, (u.sketch s.duties d x).begun d = some (v.sketch s.duties d x) := by
  simp only [Sketch.begun, Forest.duty_sketch]
  split
  · have hlt := hattached.lt_count hu.orderly.root_lt_count
    have hpass {stats : ExpansionStats} {rest : List NodeId} : (expandPass stats ([x] ++ rest)).on u =
        (expandNode x >>= fun created => expandPass
          { stats with expanded := stats.expanded + 1, created := stats.created + created } rest).on u := by
      rw [List.singleton_append, expandPass, on_get_bind,
        if_pos ((isAttached_iff hu.orderly.linked hu.orderly.root_top).2 hattached)]
    have hfertile : u.Fertile s.duties x :=
      ⟨hu.orderly.linked, hu.orderly.tidy, hlt, fun _ hy => hu.duties_of_count_le hy⟩
    rcases expandNode_sketch hfertile with ⟨k, v, hon, htidy, hsketch⟩ | ⟨e, v, d, hon, hnone⟩
    · have hdone := expandNode_done hu.orderly.linked hlt hon
      obtain ⟨cs, hre⟩ := hdone.regrown
      refine .done (hu.done hdone htidy) (.of_done hdone hu.orderly.linked) ?_ hsketch fun stats rest =>
        ⟨{ stats with expanded := stats.expanded + 1, created := stats.created + k }, ?_⟩
      · rw [hdone.same_root]
        exact hre.below_branch hu.orderly.linked hattached
      · rw [hpass, on_bind_ok hon]
    · refine .failed ⟨d, hnone⟩ fun stats rest => ⟨e, v, ?_⟩
      rw [hpass, on_bind_error hon]
  · exact .skip hu hattached (by simp) fun _ => rfl

/-! ## The children of a node -/

section Children

variable {ids : Nat → List NodeId} (hs : s.Rooted)
include hs

/-- **One child gets its turn**, if it is one still; the other children look as before. -/
theorem turns_child {ids : List NodeId} (hc : s.parent? c = some x) (hids : ∀ y ∈ ids, s.Below c y)
    (hturn : ∀ u, Midway s u → u.Below u.root c → Turn s c ids u) (hu : Midway s u) (hattached : u.Below u.root x) :
    Turns s x ids u (c ∈ u.children x ∧ ∃ d, ¬ (u.sketch s.duties d c).Passable d) fun v =>
      v.node x = u.node x ∧ ∀ e ∈ u.children x, ∀ d, if e = c then
        (u.sketch s.duties d e).Passable d ∧ v.sketch s.duties d e = (u.sketch s.duties d e).visited d
      else v.sketch s.duties d e = u.sketch s.duties d e := by
  have hl := hu.orderly.linked
  by_cases hin : u.Below u.root c
  · have hparent := hu.parent?_of_below hs hc hin
    refine ((hturn u hu hin).imp (fun hd => ⟨hl.mem_children.2 hparent, hd⟩) fun v _ hwork hv => ?_).up
      hu.orderly.toRooted hparent
    refine ⟨hwork.node_parent hl hparent, fun e he d => ?_⟩
    have hpe := hl.mem_children.1 he
    split
    · rename_i hec
      exact hec ▸ ⟨(hv d).1, (hv d).2.symm⟩
    · rename_i hne
      exact hwork.sketch_of_apart hl (Forest.lt_count_of_parent? hpe) (hl.apart_siblings hpe hparent hne .refl)
  · refine .skip hu hattached (fun y hy hroot => hin (hu.below_of_below hs (hids y hy) hroot)) ⟨rfl, fun e he d => ?_⟩
    rw [if_neg]
    rintro rfl
    exact hin (hattached.down (hl.mem_children.1 he))

theorem turns_children (cs : List NodeId) (hcs : ∀ c ∈ cs, s.parent? c = some x)
    (hids : ∀ c ∈ cs, ∀ y ∈ ids c, s.Below c y)
    (hturn : ∀ c ∈ cs, ∀ u, Midway s u → u.Below u.root c → Turn s c (ids c) u) (hu : Midway s u)
    (hattached : u.Below u.root x) :
    Turns s x (cs.flatMap ids) u
      (∃ c ∈ u.children x, ∃ k < cs.count c, ∃ d,
        ¬ ((Sketch.visited d)^[k] (u.sketch s.duties d c)).Passable d) fun v =>
      v.node x = u.node x ∧ ∀ c ∈ u.children x, ∀ d,
        (∀ k < cs.count c, ((Sketch.visited d)^[k] (u.sketch s.duties d c)).Passable d) ∧
          (Sketch.visited d)^[cs.count c] (u.sketch s.duties d c) = v.sketch s.duties d c := by
  induction cs generalizing u with
  | nil => exact .skip hu hattached (by simp) ⟨rfl, fun c _ d => ⟨by simp, rfl⟩⟩
  | cons c cs ih =>
    obtain ⟨hc, hcs⟩ := List.forall_mem_cons.1 hcs
    obtain ⟨hidc, hids⟩ := List.forall_mem_cons.1 hids
    obtain ⟨hturnc, hturn⟩ := List.forall_mem_cons.1 hturn
    have hcount (e : Nat) : (c :: cs).count e = if e = c then cs.count e + 1 else cs.count e := by
      by_cases hec : e = c
      · simp [hec]
      · simp [hec, List.count_cons_of_ne (Ne.symm hec)]
    have hfirst := turns_child hs hc hidc hturnc hu hattached
    refine (hfirst.imp (fun ⟨hmem, d, hd⟩ => ⟨c, hmem, 0, by simp, d, hd⟩) fun _ _ _ h => h).append fun v hv hroot
      ⟨hnode, hone⟩ => ?_
    have hchildren : v.children x = u.children x := congrArg Node.children hnode
    refine (ih hcs hids hturn hv hroot).imp ?_ fun w _ _ ⟨hnode', hrest⟩ => ⟨hnode'.trans hnode, fun e he d => ?_⟩
    · -- the rest of the list gives the child that has had its turn one turn less
      rintro ⟨e, he, k, hk, d, hd⟩
      rw [hchildren] at he
      have hone := hone e he d
      split at hone
      · rename_i hec
        rw [hone.2] at hd
        exact ⟨e, he, k + 1, by rw [hcount, if_pos hec]; omega, d, hd⟩
      · rename_i hec
        rw [hone] at hd
        exact ⟨e, he, k, by rwa [hcount, if_neg hec], d, hd⟩
    · obtain ⟨hpass, hend⟩ := hrest e (hchildren ▸ he) d
      have hone := hone e he d
      rw [hcount]
      split at hone
      · rename_i hec
        rw [hone.2] at hpass hend
        rw [if_pos hec]
        refine ⟨fun k hk => ?_, hend⟩
        cases k with
        | zero => exact hone.1
        | succ k => exact hpass k (by omega)
      · rename_i hec
        rw [hone] at hpass hend
        rw [if_neg hec]
        exact ⟨hpass, hend⟩

end Children

/-! ## A node and all below it -/

/-- **The turn of a node**: it begins, and its children follow. -/
theorem turn_of_children (ids : Nat → List NodeId) (hs : s.Rooted) (hids : ∀ c ∈ s.children x, ∀ y ∈ ids c, s.Below c y)
    (hturn : ∀ c ∈ s.children x, ∀ u, Midway s u → u.Below u.root c → Turn s c (ids c) u) (hu : Midway s u)
    (hattached : u.Below u.root x) :
    Turn s x ((if (s.duties x).due then [x] else []) ++ (s.children x).flatMap ids) u := by
  refine ((turns_begun hu hattached).imp (fun ⟨d, hd⟩ => ⟨d, Sketch.not_passable_of_begun hd⟩) fun _ _ _ h =>
    h).append fun v hv hroot hbegun => ?_
  have htimes {c : Nat} (hc : c ∈ v.children x) : (s.duties c).times = (s.children x).count c :=
    hv.times_eq hs.linked (hv.orderly.linked.mem_children.1 hc)
  have hkid {name : String} {e : Nat × Sketch} {d : Nat} (he : e ∈ v.kids s.duties d x name) :
      ∃ c ∈ v.children x, e.2 = v.sketch s.duties d c ∧ e.2.duty.times = (s.children x).count c := by
    obtain ⟨e', he', rfl⟩ := List.mem_map.1 he
    have hc := (Forest.mem_named.1 (mem_tally he').1).1
    exact ⟨e'.2, hc, rfl, by rw [Forest.duty_sketch, htimes hc]⟩
  have hchildren := turns_children hs (s.children x) (fun c hc => hs.linked.mem_children.1 hc) hids hturn hv hroot
  refine hchildren.imp ?_ fun w _ hwork ⟨hnode, hall⟩ d => ?_
  · rintro ⟨c, hc, k, hk, d, hd⟩
    refine ⟨d + 1, ?_⟩
    rintro ⟨now, hnow, hpass⟩
    rw [hbegun] at hnow
    cases hnow
    refine hd (hpass (v.node c).name ((v.named x (v.node c).name).count c, v.sketch s.duties d c) ?_ k
      (by rwa [Forest.duty_sketch, htimes hc]))
    exact List.mem_map.2 ⟨_, exists_mem_tally (Forest.mem_named.2 ⟨hc, rfl⟩), rfl⟩
  · cases d with
    | zero =>
      refine ⟨by rw [Sketch.Passable, hbegun]; simp, ?_⟩
      rw [Sketch.visited, hbegun, Option.getD_some, Forest.sketch, Forest.sketch, hnode]
    | succ d =>
      refine ⟨⟨_, hbegun _, fun name e he k hk => ?_⟩, ?_⟩
      · obtain ⟨c, hc, hec, hcount⟩ := hkid he
        rw [hcount] at hk
        rw [hec]
        exact (hall c hc d).1 k hk
      · have hnamed (name : String) : w.named x name = v.named x name :=
          Forest.named_congr (congrArg Node.children hnode) fun c hc =>
            hwork.name (Forest.lt_count_of_parent? (hv.orderly.linked.mem_children.1 hc))
        rw [Sketch.visited, hbegun, Option.getD_some, Forest.sketch_succ, Forest.sketch_succ, hnode]
        congr 1
        funext name
        dsimp only
        rw [Forest.kids, Forest.kids, hnamed, List.map_map]
        refine List.map_congr_left fun e he => ?_
        have hc := (Forest.mem_named.1 (mem_tally he).1).1
        rw [Function.comp_apply, Forest.duty_sketch, htimes hc, (hall e.2 hc d).2]

theorem turn_subtreeWithin (hs : s.Rooted) (hx : x < s.count)
    (hdeep : ∀ q y, s.Route x q y → q.length ≤ D) (hu : Midway s u) (hattached : u.Below u.root x) :
    Turn s x ((s.subtreeWithin D x).filter fun y => (s.duties y).due) u := by
  have hself : ([x].filter fun y => (s.duties y).due) = if (s.duties x).due then [x] else [] := by
    simp [List.filter_singleton, cond_eq_ite]
  induction D generalizing x u with
  | zero =>
    have hleaf := Forest.Route.children_eq_nil hs.linked hdeep
    have := turn_of_children (fun _ => []) hs (x := x) (by simp) (by simp [hleaf]) hu hattached
    rwa [hleaf, List.flatMap_nil, List.append_nil, ← hself] at this
  | succ D ih =>
    have hlist : (s.subtreeWithin (D + 1) x).filter (fun y => (s.duties y).due) =
        (if (s.duties x).due then [x] else []) ++
          (s.children x).flatMap fun c => (s.subtreeWithin D c).filter fun y => (s.duties y).due := by
      rw [Forest.subtreeWithin, ← List.singleton_append, List.filter_append, hself, List.filter_flatMap]
    rw [hlist]
    refine turn_of_children _ hs (fun c _ y hy => ?_) (fun c hc u hu hroot => ?_) hu hattached
    · obtain ⟨q, hq, -⟩ := (hs.linked.mem_subtreeWithin D).1 (List.mem_of_mem_filter hy)
      exact ⟨q, hq⟩
    · have hparent := hs.linked.mem_children.1 hc
      exact ih (Forest.lt_count_of_parent? hparent) (Forest.Route.length_le_child hdeep hparent) hu hroot
        (by simp [List.filter_singleton, cond_eq_ite])

/-- **A pass over a tree**, as the sketch of the tree shows it: it ends in the tree after the root's turn, or a
turn fails. -/
theorem expandPass_sketch (stats : ExpansionStats) (hs : s.Orderly) :
    (∃ stats' u, (expandPass stats s.pending).on s = (.ok stats', u) ∧ u.Orderly ∧ u.root = s.root ∧
      u.rootName = s.rootName ∧
      ∀ d, (s.sketch s.duties d s.root).Passable d ∧
      (s.sketch s.duties d s.root).visited d = u.sketch s.duties d s.root) ∨
    ∃ e u d, (expandPass stats s.pending).on s = (.error e, u) ∧ ¬ (s.sketch s.duties d s.root).Passable d := by
  have hpending : s.pending = (s.subtreeWithin s.count s.root).filter fun y => (s.duties y).due := by
    refine List.filter_congr fun y hy => ?_
    rw [duties, if_pos (hs.lt_count hy)]
  have hturn := turn_subtreeWithin hs.toRooted hs.root_lt_count (fun q y hq => hs.linked.length_le_count hq)
    ⟨hs, rfl, Nat.le_refl _, fun _ _ => .inl rfl⟩ Forest.Below.refl
  rw [← hpending] at hturn
  cases hturn with
  | @done u hu hwork _ hall hrun =>
    obtain ⟨stats', hon⟩ := hrun stats []
    rw [List.append_nil] at hon
    have hname : u.rootName = s.rootName := by
      rw [rootName, hu.same_root]
      exact hwork.name hs.root_lt_count
    exact .inl ⟨stats', u, hon, hu.orderly, hu.same_root, hname, hall⟩
  | failed hfail hrun =>
    obtain ⟨d, hd⟩ := hfail
    obtain ⟨e, u, hon⟩ := hrun stats []
    rw [List.append_nil] at hon
    exact .inr ⟨e, u, d, hon, hd⟩

end Tree
end SignalCatalog
