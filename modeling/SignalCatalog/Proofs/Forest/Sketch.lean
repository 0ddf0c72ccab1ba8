import Mathlib.Data.List.Find
import Mathlib.Logic.Function.Basic
import SignalCatalog.Proofs.Forest.Growth
import SignalCatalog.Proofs.Forest.Tally
/-!
# Sketches

What a subtree looks like when the order of siblings with different names is forgotten: the content of every node, and
for each name the children that have it, in their order, with the number of times the parent lists them.  A sketch
reaches down to a depth only, so that two forests are alike when their sketches of every depth are equal.
-/
namespace SignalCatalog

/-- What a pass over a tree owes to a node: whether the node is to be expanded, and how many times its parent hands
it a turn. -/
structure Duty where
  due : Bool := false
  times : Nat := 0

/-- **A subtree down to a depth**, siblings of different names without order. -/
structure Sketch where
  content : Content
  duty : Duty
  kids : String → List (Nat × Sketch)

namespace Sketch

/-- **The change of a node at a path**, which leads through the first child of each name; what lies deeper than the
sketch is not seen. -/
def reach (op : Nat → Sketch → Option Sketch) : (depth : Nat) → List String → Sketch → Option Sketch
  | depth, [], b => op depth b
  | 0, _ :: _, b => some b
  | depth + 1, name :: path, b =>
    match b.kids name with
    | [] => some b
    | e :: r => (reach op depth path e.2).map fun b' => { b with kids := Function.update b.kids name ((e.1, b') :: r) }

variable {op : Nat → Sketch → Option Sketch} {b : Sketch} {name : String} {path : List String}

theorem reach_nil (d : Nat) : reach op d [] b = op d b := by cases d <;> rfl

theorem reach_cons {e : Nat × Sketch} {r : List (Nat × Sketch)} (h : b.kids name = e :: r) (d : Nat) :
    reach op (d + 1) (name :: path) b = (reach op d path e.2).map fun b' =>
      { b with kids := Function.update b.kids name ((e.1, b') :: r) } := by
  rw [reach, h]

end Sketch

namespace Forest

variable {f g : Forest} {duty : NodeId → Duty} {b c d n p x N : Nat} {q : List String} {name : String} {n' : Node}

def named (f : Forest) (p : NodeId) (name : String) : List NodeId :=
  (f.children p).filter fun c => (f.node c).name == name

/-- **No child is listed again behind another of its name.** -/
def Tidy (f : Forest) : Prop := ∀ p name, Grouped (f.named p name)

/-- **The sketch of a node.** -/
def sketch (f : Forest) (duty : NodeId → Duty) : (depth : Nat) → NodeId → Sketch
  | 0, x => ⟨(f.node x).content, duty x, fun _ => []⟩
  | depth + 1, x =>
    ⟨(f.node x).content, duty x, fun name => (tally (f.named x name)).map fun e => (e.1, f.sketch duty depth e.2)⟩

def kids (f : Forest) (duty : NodeId → Duty) (depth : Nat) (x : NodeId) (name : String) : List (Nat × Sketch) :=
  (tally (f.named x name)).map fun e => (e.1, f.sketch duty depth e.2)

theorem sketch_succ : f.sketch duty (d + 1) x = ⟨(f.node x).content, duty x, f.kids duty d x⟩ := rfl

@[simp] theorem content_sketch : (f.sketch duty d x).content = (f.node x).content := by cases d <;> rfl

@[simp] theorem duty_sketch : (f.sketch duty d x).duty = duty x := by cases d <;> rfl

theorem mem_named : c ∈ f.named p name ↔ c ∈ f.children p ∧ (f.node c).name = name := by simp [named]

theorem head?_named : (f.named p name).head? = f.childNamed? p name := List.head?_filter

theorem named_eq_nil : f.named p name = [] ↔ f.childNamed? p name = none := by
  rw [← head?_named, List.head?_eq_none_iff]

theorem Linked.mem_of_tally (hf : f.Linked) {e : Nat × Nat} (he : e ∈ tally (f.named p name)) :
    f.parent? e.2 = some p ∧ (f.node e.2).name = name := by
  obtain ⟨hc, hname⟩ := mem_named.1 (mem_tally he).1
  exact ⟨hf.mem_children.1 hc, hname⟩

theorem kids_eq_nil (h : f.childNamed? p name = none) : f.kids duty d p name = [] := by
  rw [kids, named_eq_nil.2 h]
  rfl

theorem Tidy.kids_eq (hf : f.Tidy) (h : f.childNamed? p name = some c) (duty : NodeId → Duty) (d : Nat) :
    ∃ k r, tally (f.named p name) = (k, c) :: r ∧
    f.kids duty d p name = (k, f.sketch duty d c) :: r.map fun e => (e.1, f.sketch duty d e.2) := by
  obtain ⟨k, r, htally⟩ := (hf p name).exists_tally (head?_named.trans h)
  exact ⟨k, r, htally, by rw [kids, htally]; rfl⟩

/-! ## What a sketch reads -/

theorem named_congr (hchildren : g.children p = f.children p)
    (hnames : ∀ c ∈ f.children p, (g.node c).name = (f.node c).name) :
    g.named p name = f.named p name := by
  rw [named, hchildren]
  exact List.filter_congr fun c hc => by rw [hnames c hc]

theorem kids_congr (hnamed : g.named p name = f.named p name)
    (h : ∀ c ∈ f.named p name, g.sketch duty d c = f.sketch duty d c) :
    g.kids duty d p name = f.kids duty d p name := by
  rw [kids, hnamed]
  exact List.map_congr_left fun e he => by rw [h e.2 (mem_tally he).1]

structure SameAt (f g : Forest) (x : Nat) : Prop where
  name : (g.node x).name = (f.node x).name
  content : (g.node x).content = (f.node x).content
  children : g.children x = f.children x

theorem SameAt.of_eq (h : g.node x = f.node x) : SameAt f g x := ⟨by rw [h], by rw [h], congrArg Node.children h⟩

/-- **The sketch of a node reads what is below the node**, and nothing else. -/
theorem sketch_congr (hf : f.Linked) (h : ∀ y, f.Below x y → SameAt f g y) : g.sketch duty d x = f.sketch duty d x := by
  induction d generalizing x with
  | zero => rw [sketch, sketch, (h x .refl).content]
  | succ d ih =>
    have hchild {c : Nat} (hc : c ∈ f.children x) : f.Below x c := Below.refl.down (hf.mem_children.1 hc)
    rw [sketch_succ, sketch_succ, (h x .refl).content]
    congr 1
    funext name
    refine kids_congr (named_congr (h x .refl).children fun c hc => (h c (hchild hc)).name) fun c hc =>
      ih fun y hy => ?_
    exact h y ((hchild (mem_named.1 hc).1).trans hy)

theorem sketch_modify {k : Node → Node} (hf : f.Linked) (hx : x < f.count) (hname : ∀ m, (k m).name = m.name)
    (hchildren : ∀ m, (k m).children = m.children) (duty : NodeId → Duty) (d : Nat) :
    (f.modify x k).sketch duty d x = { f.sketch duty d x with content := (k (f.node x)).content } := by
  have hother {y : Nat} (hy : y ≠ x) : SameAt f (f.modify x k) y := .of_eq (node_modify_ne k hy)
  cases d with
  | zero => rw [sketch, sketch, node_modify_self k hx]
  | succ d =>
    rw [sketch_succ, sketch_succ, node_modify_self k hx]
    congr 1
    funext name
    refine kids_congr (named_congr (field_modify Node.children hchildren) fun c _ =>
      field_modify Node.name hname) fun c hc => ?_
    refine sketch_congr hf fun y hy => hother ?_
    rintro rfl
    exact hf.not_below_parent (hf.mem_children.1 (mem_named.1 hc).1) hy

theorem Grown.sketch_of_apart (hg : Grown n f g) (hf : f.Linked) (hb : b < f.count) (h : f.Apart b n) :
    g.sketch duty d b = f.sketch duty d b :=
  sketch_congr hf fun _ hy => .of_eq (hg.outside (hy.lt_count hb) (h hy))

theorem Linked.apart_siblings (hf : f.Linked) (hb : f.parent? b = some p) (hc : f.parent? c = some p)
    (hne : b ≠ c) (hx : f.Below c x) :
    f.Apart b x := fun _ hy hxy => hf.not_below_of_siblings hb hc hne hy (hx.trans hxy)

/-- **A change below the first child of a name** is a change of one entry. -/
theorem Grown.kids_eq (hg : Grown x f g) (hf : f.Linked) (htidy : f.Tidy)
    (hc : f.childNamed? p name = some c) (hx : f.Below c x) (duty : NodeId → Duty) (d : Nat) :
    ∃ k r, f.kids duty d p name = (k, f.sketch duty d c) :: r ∧
      g.kids duty d p = Function.update (f.kids duty d p) name ((k, g.sketch duty d c) :: r) := by
  obtain ⟨k, r, htally, hkids⟩ := htidy.kids_eq hc duty d
  obtain ⟨hparent, hname⟩ := hf.mem_childNamed? hc
  have hp := hf.lt_count_parent hparent
  have hnode : g.node p = f.node p := hg.outside hp fun h => hf.not_below_parent hparent (hx.trans h)
  have hnamed (name : String) : g.named p name = f.named p name :=
    named_congr (congrArg Node.children hnode) fun e he => hg.name (lt_count_of_parent? (hf.mem_children.1 he))
  have hside {e : Nat} (he : f.parent? e = some p) (hne : e ≠ c) : g.sketch duty d e = f.sketch duty d e :=
    hg.sketch_of_apart hf (lt_count_of_parent? he) (hf.apart_siblings he hparent hne hx)
  refine ⟨k, _, hkids, funext fun s => ?_⟩
  by_cases hs : s = name
  · subst hs
    rw [Function.update_self, kids, hnamed, htally, List.map_cons]
    refine congrArg _ (List.map_congr_left fun e he => ?_)
    have hes : IsTally ((k, c) :: r) := htally ▸ isTally_tally _
    rw [hside (hf.mem_of_tally (htally ▸ List.mem_cons_of_mem _ he)).1]
    rintro rfl
    exact (List.nodup_cons.1 hes.nodup).1 (List.mem_map.2 ⟨e, he, rfl⟩)
  · rw [Function.update_of_ne hs]
    refine kids_congr (hnamed s) fun e he => hside (hf.mem_children.1 (mem_named.1 he).1) ?_
    rintro rfl
    exact hs ((mem_named.1 he).2.symm.trans hname)

/-! ## First children -/

/-- **The first child of a name stays the first.** -/
def Retains (f g : Forest) : Prop := ∀ ⦃p name c⦄, f.childNamed? p name = some c → g.childNamed? p name = some c

theorem Retains.refl : Retains f f := fun _ _ _ h => h

theorem Retains.trans {h : Forest} (hfg : Retains f g) (hgh : Retains g h) : Retains f h := fun _ _ _ hc => hgh (hfg hc)

theorem Retains.descend? (h : Retains f g) (hq : f.descend? n q = some x) : g.descend? n q = some x := by
  induction q generalizing n with
  | nil => exact hq
  | cons name q ih =>
    rw [Forest.descend?, Option.bind_eq_some_iff] at hq
    obtain ⟨c, hc, hr⟩ := hq
    rw [Forest.descend?, h hc]
    exact ih hr

theorem descend?_snoc (hq : f.descend? n q = some p) (hc : f.childNamed? p name = some c) :
    f.descend? n (q ++ [name]) = some c := by
  induction q generalizing n with
  | nil =>
    cases hq
    rw [List.nil_append, Forest.descend?, hc]
    rfl
  | cons first q ih =>
    rw [Forest.descend?, Option.bind_eq_some_iff] at hq
    obtain ⟨e, he, hr⟩ := hq
    rw [List.cons_append, Forest.descend?, he]
    exact ih hr

/-! ## Changes at a path -/

section Reach

variable {op : Nat → Sketch → Option Sketch} (htidy : f.Tidy) (hq : f.descend? n q = some x)
include htidy hq

theorem Grown.reach (hg : Grown x f g) (hf : f.Linked)
    (h : ∀ d ≤ N, op d (f.sketch duty d x) = some (g.sketch duty d x)) (hd : d ≤ N) :
    (f.sketch duty d n).reach op d q = some (g.sketch duty d n) := by
  induction q generalizing n d with
  | nil =>
    cases hq
    rw [Sketch.reach_nil, h d hd]
  | cons name q ih =>
    rw [Forest.descend?, Option.bind_eq_some_iff] at hq
    obtain ⟨c, hc, hr⟩ := hq
    have hparent := (hf.mem_childNamed? hc).1
    have hnode : g.node n = f.node n := hg.outside (hf.lt_count_parent hparent) fun h =>
      hf.not_below_parent hparent (Below.trans ⟨_, hf.route_of_descend? hr⟩ h)
    cases d with
    | zero => rw [sketch, sketch, hnode]; rfl
    | succ d =>
      obtain ⟨k, r, hold, hnew⟩ := hg.kids_eq hf htidy hc ⟨_, hf.route_of_descend? hr⟩ duty d
      rw [sketch_succ, sketch_succ, hnode, hnew, Sketch.reach_cons hold, ih hr (by omega)]
      rfl

/-- **A failure at a node shows from above**, deep enough a sketch provided. -/
theorem reach_eq_none (h : op d (f.sketch duty d x) = none) :
    (f.sketch duty (d + q.length) n).reach op (d + q.length) q = none := by
  induction q generalizing n with
  | nil =>
    cases hq
    rw [Sketch.reach_nil]
    exact h
  | cons name q ih =>
    rw [Forest.descend?, Option.bind_eq_some_iff] at hq
    obtain ⟨c, hc, hr⟩ := hq
    obtain ⟨k, r, -, hkids⟩ := htidy.kids_eq hc duty (d + q.length)
    rw [List.length_cons, ← Nat.add_assoc, sketch_succ, Sketch.reach_cons hkids, ih hr]
    rfl

end Reach

end Forest
end SignalCatalog
