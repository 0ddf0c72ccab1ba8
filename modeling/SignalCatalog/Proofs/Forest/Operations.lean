import SignalCatalog.Proofs.Forest.Graft
import SignalCatalog.Proofs.Forest.Pruned
/-!
# Trees under all operations

Child lists and parent links are two records of the same edges, and every operation on a tree writes both.  Nodes come
in one at a time, each below a node that is there; nodes are cut off; and a subtree is moved to a place outside of it.
Each of these keeps the two records the same and free of cycles, so they are so after any run of operations.
-/
namespace SignalCatalog
namespace Forest

variable {P Q : Nat → Prop} {f g h source : Forest} {c d p s x y : Nat} {cs : List Nat} {n : Node}

/-! ## Nodes come in -/

/-- **New nodes have come in one after another**, each as the last child of an old node of some kind or of a new one. -/
inductive Added (P : Nat → Prop) (f : Forest) : Forest → Prop
  | refl : Added P f f
  | step {g : Forest} {q : Nat} {n : Node} : Added P f g → P q ∨ f.count ≤ q → q < g.count →
      n.parent = none → n.children = [] → Added P f (g.addChild q n).1

namespace Added

theorem count_le (h : Added P f g) : f.count ≤ g.count := by
  induction h with
  | refl => exact Nat.le_refl _
  | step _ _ _ _ _ ih =>
    rw [count_addChild]
    exact Nat.le_succ_of_le ih

theorem node (h : Added P f g) (hx : x < f.count) (hne : ¬ P x) : g.node x = f.node x := by
  induction h with
  | refl => rfl
  | @step g q n hg hq hlt hn hc ih =>
    have := hg.count_le
    have hxq : x ≠ q := by
      rintro rfl
      exact hq.elim hne (Nat.not_le.2 hx)
    rw [node_addChild hlt hn hc, if_neg (by omega), if_neg hxq, ih]

theorem parent? (h : Added P f g) (hx : x < f.count) : g.parent? x = f.parent? x := by
  induction h with
  | refl => rfl
  | step hg _ hlt hn hc ih =>
    have := hg.count_le
    rw [parent?_addChild hlt hn hc, if_neg (by omega), ih]

theorem linked (h : Added P f g) (hf : f.Linked) : g.Linked := by
  induction h with
  | refl => exact hf
  | step _ _ hlt hn hc ih => exact linked_addChild ih hlt hn hc

theorem childrenNodup (h : Added P f g) (hf : f.Linked) (hnodup : f.ChildrenNodup) : g.ChildrenNodup := by
  induction h with
  | refl => exact hnodup
  | step hg _ hlt hn hc ih => exact childrenNodup_addChild (hg.linked hf) ih hlt hn hc

theorem trans (hfg : Added P f g) (hgh : Added Q g h) (hQ : ∀ q, Q q → P q ∨ f.count ≤ q) : Added P f h := by
  induction hgh with
  | refl => exact hfg
  | step _ hq hlt hn hc ih => exact .step ih (hq.elim (hQ _) fun hle => .inr (Nat.le_trans hfg.count_le hle)) hlt hn hc

theorem foldl {step : Forest → Nat → Forest}
    (hstep : ∀ g c, p < g.count → Added (· = p) g (step g c)) (hp : p < f.count) :
    Added (· = p) f (cs.foldl step f) := by
  induction cs generalizing f with
  | nil => exact .refl
  | cons c cs ih =>
    have hone := hstep f c hp
    exact hone.trans (ih (Nat.lt_of_lt_of_le hp hone.count_le)) fun _ => .inl

end Added

theorem added_addChild (hp : p < f.count) (hn : n.parent = none) (hc : n.children = []) :
    Added (· = p) f (f.addChild p n).1 :=
  .step .refl (.inl rfl) hp hn hc

/-- **A copy comes in node by node**, whatever it is a copy of. -/
theorem added_graftWithin (hp : p < f.count) : Added (· = p) f (source.graftWithin d f s p).1 := by
  induction d generalizing f s p with
  | zero => exact added_addChild hp rfl rfl
  | succ d ih =>
    have hone := added_addChild (n := (source.node s).alone) hp rfl rfl
    have hlt : f.count < (f.addChild p (source.node s).alone).1.count := by simp
    exact hone.trans (Added.foldl (fun g c => ih) hlt) fun q hq => .inr (Nat.le_of_eq hq.symm)

theorem parent?_graftWithin (hp : p < f.count) : (source.graftWithin d f s p).1.parent? f.count = some p := by
  have hnew : (f.addChild p (source.node s).alone).1.parent? f.count = some p := by
    rw [parent?_addChild hp rfl rfl, if_pos rfl]
  cases d with
  | zero => exact hnew
  | succ d =>
    have hlt : f.count < (f.addChild p (source.node s).alone).1.count := by simp
    exact ((Added.foldl (fun g c => added_graftWithin) hlt).parent? hlt).trans hnew

/-! ## A copy within one forest -/

/-- A copy that reads each node from the forest as it is by then, `none` when it is more than `depth` levels deep. -/
def copyLive? : (depth : Nat) → Forest → (src parent : NodeId) → Option (Forest × NodeId)
  | 0, _, _, _ => none
  | depth + 1, f, src, parent =>
    let (f, copy) := f.addChild parent (f.node src).alone
    ((f.children src).foldlM (fun f c => (copyLive? depth f c copy).map (·.1)) f).map (·, copy)

theorem copyLive?_succ : f.copyLive? (d + 1) s p =
    (((f.addChild p (f.node s).alone).1.children s).foldlM (fun (g : Forest) c => (g.copyLive? d c f.count).map (·.1))
      (f.addChild p (f.node s).alone).1).map (·, f.count) := rfl

theorem foldlM_copyLive? (source : Forest) (d : Nat)
    (hcopy : ∀ g, source.count ≤ g.count → p < g.count → (∀ x < source.count, x ≠ p → g.node x = f.node x) →
      ∀ c ∈ cs, g.copyLive? (d + 1) c p = some (source.graftWithin d g c p))
    (hcount : source.count ≤ f.count) (hp : p < f.count) :
    cs.foldlM (fun f c => (f.copyLive? (d + 1) c p).map (·.1)) f =
      some (cs.foldl (fun f c => (source.graftWithin d f c p).1) f) := by
  induction cs generalizing f with
  | nil => rfl
  | cons c cs ih =>
    have hone : Added (· = p) f (source.graftWithin d f c p).1 := added_graftWithin hp
    rw [List.foldlM_cons, hcopy f hcount hp (fun _ _ _ => rfl) c List.mem_cons_self, List.foldl_cons]
    refine ih (fun g hg hpg hsame e he => hcopy g hg hpg (fun x hx hne => ?_) e (List.mem_cons_of_mem _ he))
      (Nat.le_trans hcount hone.count_le) (Nat.lt_of_lt_of_le hp hone.count_le)
    rw [hsame x hx hne, hone.node (Nat.lt_of_lt_of_le hx hcount) hne]

theorem node_addChild_of_below (hlt : s < source.count) (hsame : ∀ x, source.Below s x → f.node x = source.node x)
    (hcount : source.count ≤ f.count) (hp : p < f.count) (hout : ¬ source.Below s p) (hx : source.Below s x) :
    (f.addChild p (f.node s).alone).1.node x = source.node x := by
  have hxp : x ≠ p := by
    rintro rfl
    exact hout hx
  have := hx.lt_count hlt
  rw [node_addChild hp rfl rfl, if_neg (by omega), if_neg hxp, hsame x hx]

/-- **A copy made outside of what is copied** does not meet itself, so that it may as well read the forest as it was. -/
theorem copyLive?_eq_graftWithin (hs : source.Linked) (hlt : s < source.count)
    (hdepth : ∀ q x, source.Route s q x → q.length ≤ d) (hsame : ∀ x, source.Below s x → f.node x = source.node x)
    (hcount : source.count ≤ f.count) (hp : p < f.count) (hout : ¬ source.Below s p) :
    f.copyLive? (d + 1) s p = some (source.graftWithin d f s p) := by
  induction d generalizing f s p with
  | zero =>
    have hleaf := Route.children_eq_nil hs hdepth
    have hchildren : (f.addChild p (f.node s).alone).1.children s = source.children s :=
      congrArg Node.children (node_addChild_of_below hlt hsame hcount hp hout .refl)
    rw [copyLive?_succ, hchildren, hleaf, hsame s .refl]
    rfl
  | succ d ih =>
    have hadded (x : Nat) (hx : source.Below s x) := node_addChild_of_below hlt hsame hcount hp hout hx
    have hchildren : (f.addChild p (f.node s).alone).1.children s = source.children s :=
      congrArg Node.children (hadded s .refl)
    have hsize : (f.addChild p (f.node s).alone).1.count = f.count + 1 := count_addChild _
    rw [copyLive?_succ, hchildren, foldlM_copyLive? source d (fun g hg hlast hg' c hc => ?_) (by omega) (by omega)]
    · rw [hsame s .refl]
      rfl
    · have hparent := hs.mem_children.1 hc
      have hclt := lt_count_of_parent? hparent
      refine ih hclt (Route.length_le_child hdepth hparent) (fun x hx => ?_) hg hlast fun hb => ?_
      · have hxlt := hx.lt_count hclt
        rw [hg' x hxlt (by omega), hadded x ((Below.refl.down hparent).trans hx)]
      · have := hb.lt_count hclt
        omega

/-- **Copying a subtree to a place outside of it ends**, with the copy of what was there before. -/
theorem copyLive?_eq_copySubtree (hf : f.Linked) (hs : s < f.count) (hp : p < f.count) (hout : ¬ f.Below s p) :
    f.copyLive? (f.count + 1) s p = some (f.copySubtree s p) :=
  copyLive?_eq_graftWithin hf hs (fun _ _ h => hf.length_le_count h) (fun _ _ => rfl) (Nat.le_refl _) hp hout

/-! ## A subtree is moved -/

theorem parent?_detach (hf : f.Linked) : (f.detach x).parent? y = if y = x then none else f.parent? y := by
  rw [parent?, node_detach_of_linked hf]

theorem attach_eq_attach_detach (hf : f.Linked) : f.attach p x = (f.detach x).attach p x := by
  rw [attach, attach, detach_of_parent?_eq_none ((parent?_detach hf).trans (if_pos rfl))]

section

variable (hf : f.Linked) (hlt : x < f.count) (hp : p < f.count)
include hf hlt hp

theorem parent?_attach : (f.attach p x).parent? y = if y = x then some p else f.parent? y := by
  have hcount : (f.detach x).count = f.count := count_detach
  rw [attach_eq_attach_detach hf, parent?, node_attach ((parent?_detach hf).trans (if_pos rfl)) (hcount ▸ hlt)
    (hcount ▸ hp), parent?_detach hf]
  split <;> rfl

variable (hx : f.parent? x = none)
include hx

omit hf in
theorem children_attach : (f.attach p x).children y = if y = p then f.children y ++ [x] else f.children y := by
  rw [children, node_attach hx hlt hp]

/-- **A top that is hung below a node outside of its subtree** makes no cycle: all its subtree gets higher ranks than
that node. -/
theorem linked_attach (hbelow : ¬ f.Below x p) : (f.attach p x).Linked where
  mem_children := by
    intro q c
    rw [children_attach hlt hp hx, parent?_attach hf hlt hp]
    by_cases hq : q = p
    · rw [if_pos hq, List.mem_append, List.mem_singleton, hf.mem_children, hq]
      by_cases hc : c = x <;> simp [hc]
    · rw [if_neg hq, hf.mem_children]
      by_cases hc : c = x
      · rw [if_pos hc, hc, hx]
        simp [Ne.symm hq]
      · rw [if_neg hc]
  ranked := by
    classical
    obtain ⟨rank, hrank⟩ := hf.ranked
    -- an edge within the subtree keeps its slope, and no old edge leads into the subtree from outside
    refine ⟨fun y => if f.Below x y then rank y + rank p + 1 else rank y, fun {c q} hc => ?_⟩
    rw [parent?_attach hf hlt hp] at hc
    dsimp only
    by_cases hcx : c = x
    · rw [if_pos hcx] at hc
      cases hc
      rw [hcx, if_neg hbelow, if_pos .refl]
      omega
    · rw [if_neg hcx] at hc
      have hstep := hrank hc
      by_cases hq : f.Below x q
      · rw [if_pos hq, if_pos (hq.down hc)]
        omega
      · have hc' : ¬ f.Below x c := by
          rintro ⟨r, hr⟩
          cases hr with
          | here => exact hcx rfl
          | down hr hc' =>
            rw [hc] at hc'
            cases hc'
            exact hq ⟨_, hr⟩
        rw [if_neg hq, if_neg hc']
        exact hstep

theorem childrenNodup_attach (hn : f.ChildrenNodup) : (f.attach p x).ChildrenNodup := by
  intro y
  rw [children_attach hlt hp hx]
  split
  · refine List.nodup_append.2 ⟨hn y, List.nodup_singleton _, fun c hc d hd => ?_⟩
    rw [List.mem_singleton.1 hd]
    rintro rfl
    rw [hf.mem_children, hx] at hc
    cases hc
  · exact hn y

end
end Forest

namespace Tree

open Forest (Added)

variable {t u : Tree} {g : Forest} {a p c : Nat}

theorem wellFormed_single (name : String) (pl : Payload) : (single name pl).WellFormed := wellFormed_of_isOrdered rfl

theorem WellFormed.added {P : Nat → Prop} (ht : t.WellFormed) (h : Added P t.toForest g) :
    (t.withForest g).WellFormed where
  linked := h.linked ht.linked
  root_top := (h.parent? ht.root_lt_count).trans ht.root_top
  root_lt_count := Nat.lt_of_lt_of_le ht.root_lt_count h.count_le
  children_nodup := h.childrenNodup ht.linked ht.children_nodup

theorem WellFormed.detach (ht : t.WellFormed) (x : Nat) : (t.withForest (t.detach x)).WellFormed := by
  have hcut := Forest.cut_foldl_detach ht.linked [x]
  exact ⟨ht.cut hcut, hcut.childrenNodup ht.children_nodup⟩

theorem WellFormed.attach_top (ht : t.WellFormed) (hnone : t.parent? c = none) (hc : c < t.count)
    (hp : p < t.count) (hroot : c ≠ t.root) (hbelow : ¬ t.Below c p) : (t.withForest (t.attach p c)).WellFormed where
  linked := Forest.linked_attach ht.linked hc hp hnone hbelow
  root_top := by
    refine (Forest.parent?_attach (f := t.toForest) (y := t.root) ht.linked hc hp).trans ?_
    rw [if_neg (Ne.symm hroot), ht.root_top]
  root_lt_count := Nat.lt_of_lt_of_eq ht.root_lt_count (Forest.count_attach (f := t.toForest)).symm
  children_nodup := Forest.childrenNodup_attach ht.linked hc hp hnone ht.children_nodup

theorem WellFormed.attach (ht : t.WellFormed) (hc : c < t.count) (hp : p < t.count) (hroot : c ≠ t.root)
    (hbelow : ¬ t.Below c p) :
    (t.withForest (t.attach p c)).WellFormed := by
  have hcut := Forest.cut_foldl_detach ht.linked [c]
  have hcount : (t.detach c).count = t.count := Forest.count_detach
  rw [Forest.attach_eq_attach_detach ht.linked]
  exact (ht.detach c).attach_top ((Forest.parent?_detach ht.linked).trans (if_pos rfl))
    (Nat.lt_of_lt_of_eq hc hcount.symm)
    (Nat.lt_of_lt_of_eq hp hcount.symm) hroot fun h => hbelow (hcut.below ht.linked h)

theorem added_ensureBelow (names : List String) (ht : t.Linked) (ha : a < t.count) :
    Added (fun _ => True) t.toForest (t.ensureBelow a names).1.toForest ∧ (t.ensureBelow a names).1.root = t.root := by
  induction names generalizing t a with
  | nil => exact ⟨.refl, rfl⟩
  | cons name names ih =>
    rw [ensureBelow]
    split
    · rename_i c hc
      exact ih ht (Forest.lt_count_of_parent? (ht.mem_childNamed? hc).1)
    · have hone : Added (fun _ => True) t.toForest (t.addChild a (.placeholder name)).1 :=
        .step .refl (.inl trivial) ha rfl rfl
      obtain ⟨hrest, hroot⟩ := ih (t := t.withForest (t.addChild a (.placeholder name)).1) (hone.linked ht)
        (Nat.lt_of_lt_of_eq (Nat.lt_succ_self _) (Forest.count_addChild _).symm)
      exact ⟨hone.trans hrest fun _ => .inl, hroot⟩

theorem added_ensure (ht : t.Rooted) (fqn : String) :
    Added (fun _ => True) t.toForest (t.ensure fqn).1.toForest ∧ (t.ensure fqn).1.root = t.root := by
  rw [ensure]
  split
  · exact ⟨.refl, rfl⟩
  · split
    · exact added_ensureBelow _ ht.linked ht.root_lt_count
    · exact ⟨.refl, rfl⟩

theorem WellFormed.ensure (ht : t.WellFormed) (fqn : String) : (t.ensure fqn).1.WellFormed := by
  obtain ⟨hadded, hroot⟩ := added_ensure ht.toRooted fqn
  have hu := ht.added hadded
  rw [withForest, ← hroot] at hu
  exact hu

/-! ## Runs of operations -/

/-- **What can be done to a tree.** -/
inductive Operation where
  | addChild (parent : NodeId) (n : Node)
  | attach (parent child : NodeId)
  | detach (child : NodeId)
  | copySubtree (src parent : NodeId)
  | importSubtree (other : Tree) (src parent : NodeId)
  | ensure (fqn : String)
  | prune
  deriving Repr

namespace Operation

def run (t : Tree) : Operation → Tree
  | addChild parent n => t.withForest (t.addChild parent n).1
  | attach parent child => t.withForest (t.attach parent child)
  | detach child => t.withForest (t.detach child)
  | copySubtree src parent => t.withForest (t.copySubtree src parent).1
  | importSubtree other src parent => t.withForest (t.graft other.toForest src parent).1
  | ensure fqn => (t.ensure fqn).1
  | prune => t.prune.1

/-- **When it may be done**: nodes that are named exist, a new node has no edges, the root stays where it is, and
nothing is put or copied below itself. -/
def Allowed (t : Tree) : Operation → Prop
  | addChild parent n => parent < t.count ∧ n.parent = none ∧ n.children = []
  | attach parent child => parent < t.count ∧ child < t.count ∧ child ≠ t.root ∧ child ∉ t.lineage parent
  | detach child => child < t.count
  | copySubtree src parent => src < t.count ∧ parent < t.count ∧ src ∉ t.lineage parent
  | importSubtree other src parent => src < other.count ∧ parent < t.count
  | ensure _ => True
  | prune => True

instance (t : Tree) : (op : Operation) → Decidable (op.Allowed t)
  | addChild parent n => inferInstanceAs (Decidable (parent < t.count ∧ n.parent = none ∧ n.children = []))
  | attach parent child => inferInstanceAs (Decidable (parent < t.count ∧ child < t.count ∧ child ≠ t.root ∧
    child ∉ t.lineage parent))
  | detach child => inferInstanceAs (Decidable (child < t.count))
  | copySubtree src parent => inferInstanceAs (Decidable (src < t.count ∧ parent < t.count ∧ src ∉ t.lineage parent))
  | importSubtree other src parent => inferInstanceAs (Decidable (src < other.count ∧ parent < t.count))
  | ensure _ => inferInstanceAs (Decidable True)
  | prune => inferInstanceAs (Decidable True)

/-- The link that an operation leaves at a node that was there before. -/
def linkAt (t : Tree) (x : NodeId) : Operation → Option NodeId
  | attach parent child => if x = child then some parent else t.parent? x
  | detach child => if x = child then none else t.parent? x
  | prune => if x ∈ t.marked then none else t.parent? x
  | _ => t.parent? x

def place? : Operation → Option NodeId
  | addChild parent _ | copySubtree _ parent | importSubtree _ _ parent => some parent
  | _ => none

/-- **What an operation does to the links**: old nodes are moved or cut off as it says, and a new node comes in at the
next index. -/
structure Relinks (op : Operation) (t u : Tree) : Prop where
  old : ∀ x < t.count, u.parent? x = op.linkAt t x
  new : ∀ p, op.place? = some p → u.parent? t.count = some p

end Operation

def after (t : Tree) (ops : List Operation) : Tree := ops.foldl Operation.run t

/-- **Each operation is allowed when its turn comes.** -/
def Permits (t : Tree) : List Operation → Prop
  | [] => True
  | op :: ops => op.Allowed t ∧ (op.run t).Permits ops

instance decidablePermits (t : Tree) : (ops : List Operation) → Decidable (t.Permits ops)
  | [] => inferInstanceAs (Decidable True)
  | op :: ops =>
    have := decidablePermits (op.run t) ops
    inferInstanceAs (Decidable (op.Allowed t ∧ (op.run t).Permits ops))

variable {op : Operation} {ops : List Operation}

theorem WellFormed.run (ht : t.WellFormed) (h : op.Allowed t) : (op.run t).WellFormed := by
  cases op with
  | addChild parent n =>
    obtain ⟨hp, hn, hc⟩ := h
    exact ht.added (Forest.added_addChild hp hn hc)
  | attach parent child =>
    obtain ⟨hp, hc, hroot, hout⟩ := h
    exact ht.attach hc hp hroot fun hb => hout (ht.linked.mem_lineage.2 hb)
  | detach child => exact ht.detach child
  | copySubtree src parent => exact ht.added (Forest.added_graftWithin h.2.1)
  | importSubtree other src parent => exact ht.added (Forest.added_graftWithin h.2)
  | ensure fqn => exact ht.ensure fqn
  | prune => exact (exactlyPruned_prune ht).wellFormed

theorem relinks_run (ht : t.WellFormed) (h : op.Allowed t) : op.Relinks t (op.run t) := by
  cases op with
  | addChild parent n =>
    obtain ⟨hp, hn, hc⟩ := h
    refine ⟨fun x hx => (Forest.added_addChild hp hn hc).parent? hx, fun p hplace => ?_⟩
    cases hplace
    exact (Forest.parent?_addChild hp hn hc).trans (if_pos rfl)
  | attach parent child =>
    obtain ⟨hp, hc, -, -⟩ := h
    exact ⟨fun x _ => Forest.parent?_attach ht.linked hc hp, fun _ hplace => nomatch hplace⟩
  | detach child => exact ⟨fun x _ => Forest.parent?_detach ht.linked, fun _ hplace => nomatch hplace⟩
  | copySubtree src parent =>
    refine ⟨fun x hx => (Forest.added_graftWithin h.2.1).parent? hx, fun p hplace => ?_⟩
    cases hplace
    exact Forest.parent?_graftWithin h.2.1
  | importSubtree other src parent =>
    refine ⟨fun x hx => (Forest.added_graftWithin h.2).parent? hx, fun p hplace => ?_⟩
    cases hplace
    exact Forest.parent?_graftWithin h.2
  | ensure fqn => exact ⟨fun x hx => (added_ensure ht.toRooted fqn).1.parent? hx, fun _ hplace => nomatch hplace⟩
  | prune => exact ⟨fun x _ => (cut_prune ht.linked).parent? x, fun _ hplace => nomatch hplace⟩

/-- A copy within a tree, made node by node, ends with the tree that the operation gives. -/
theorem WellFormed.copyLive? {src parent : NodeId} (ht : t.WellFormed)
    (h : (Operation.copySubtree src parent).Allowed t) :
    (t.copyLive? (t.count + 1) src parent).map (fun made => t.withForest made.1) =
      some ((Operation.copySubtree src parent).run t) := by
  obtain ⟨hsrc, hp, hout⟩ := h
  rw [Forest.copyLive?_eq_copySubtree ht.linked hsrc hp fun hb => hout (ht.linked.mem_lineage.2 hb)]
  rfl

theorem WellFormed.after (ht : t.WellFormed) (h : t.Permits ops) : (t.after ops).WellFormed := by
  induction ops generalizing t with
  | nil => exact ht
  | cons op ops ih => exact ih (ht.run h.1) h.2

/-- **The two records of the edges are the same**, they have no cycle, and both tell alike which nodes belong to
the tree. -/
structure EdgesAgree (t : Tree) : Prop where
  listed : ∀ p c, c ∈ t.children p ↔ t.parent? c = some p
  once : ∀ p c, c ∈ t.children p → (t.children p).count c = 1
  ends : WellFounded fun p c => t.parent? c = some p
  top : ∀ x, t.parent? (t.top x) = none
  attached : ∀ x, t.isAttached x = true ↔ x ∈ t.preorder

theorem WellFormed.edgesAgree (ht : t.WellFormed) : t.EdgesAgree where
  listed := fun _ _ => ht.linked.mem_children
  once := fun p _ hc => List.count_eq_one_of_mem (ht.children_nodup p) hc
  ends := by
    obtain ⟨rank, hrank⟩ := ht.linked.ranked
    exact Subrelation.wf hrank (measure rank).wf
  top := fun x => by
    obtain ⟨a, ha, q, hq⟩ := ht.linked.exists_top x
    rw [Forest.top_eq_of_route ht.linked ha hq, ha]
  attached := fun x => (isAttached_iff ht.linked ht.root_top).trans (mem_preorder ht.linked).symm

/-- **Child lists and parent links agree after any run of operations** on a tree that began as a root: a node is in the
list of the one that its link names and in no other, and once; links lead up to an end; and the links of a node lead to
the root just when the walk down meets it.  The links themselves are what the last operation made of those before it. -/
theorem edgesAgree_after {name : String} {pl : Payload} (h : (single name pl).Permits ops) :
    ((single name pl).after ops).EdgesAgree ∧
    ∀ op : Operation, op.Allowed ((single name pl).after ops) →
      op.Relinks ((single name pl).after ops) (op.run ((single name pl).after ops)) :=
  have hwellFormed := (wellFormed_single name pl).after h
  ⟨hwellFormed.edgesAgree, fun _ => relinks_run hwellFormed⟩

/-- A door is put below a cabin, which is copied, cut off and hung below its copy; a subtree of another tree and missing
nodes come in, and what is marked goes. -/
def cabinMoves : List Operation := [
  .addChild 0 { name := "Cabin", payload := .branch "cabin" },
  .addChild 1
    { name := "Door", payload := { common := { description := "door", delete := true }, body := .branch [] } },
  .copySubtree 1 0, .detach 1, .attach 3 1, .importSubtree (single "Seat" (.branch "seat")) 0 1,
  .ensure "Vehicle.Cabin.Roof", .prune]

theorem edgesAgree_cabinMoves : (single "Vehicle" (.branch "vehicle")).Permits cabinMoves ∧
    ((single "Vehicle" (.branch "vehicle")).after cabinMoves).EdgesAgree ∧
    ((single "Vehicle" (.branch "vehicle")).after cabinMoves).preorder = [0, 3, 1, 5, 6] ∧
    ((Operation.attach 0 5).run ((single "Vehicle" (.branch "vehicle")).after cabinMoves)).parent? 5 = some 0 := by
  have hpermits : (single "Vehicle" (.branch "vehicle")).Permits cabinMoves := by decide
  obtain ⟨hagree, hrelinks⟩ := edgesAgree_after hpermits
  have hseat := (hrelinks (.attach 0 5) (by decide)).old 5 (by decide)
  exact ⟨hpermits, hagree, by decide, hseat⟩

end Tree
end SignalCatalog
