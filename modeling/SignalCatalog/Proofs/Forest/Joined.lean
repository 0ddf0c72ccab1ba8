import SignalCatalog.Proofs.Forest.Front
import SignalCatalog.Proofs.Forest.Sketch
/-!
# Joining sketches

What becomes of the sketch of a node when others are merged into it, one child after another: a child of a name that is
there takes in what comes under this name, and otherwise a copy comes in.  Children of different names have nothing to
do with each other, so their order cannot show.
-/
namespace SignalCatalog

namespace Sketch

def fill (b : Sketch) (c : Content) : Sketch := { b with content := c.onto (some b.content) }

def listed (b : Sketch) (name : String) : List Sketch := untally (b.kids name)

/-- **The sketch of a copy**: what is listed many times is copied many times. -/
def copy : (depth : Nat) → Sketch → Sketch
  | 0, b => ⟨b.content, {}, fun _ => []⟩
  | depth + 1, b => ⟨b.content, {}, fun name => (b.listed name).map fun c => (1, copy depth c)⟩

/-- **Sketches merged into a sketch**, those of each name into the first child that has it.  This child is
listed anew. -/
def splice : (depth : Nat) → Sketch → (String → List Sketch) → Sketch
  | 0, b, _ => b
  | depth + 1, b, others =>
    let join (l : List (Nat × Sketch)) (t : Sketch) : List (Nat × Sketch) :=
      match l with
      | [] => [(1, t.copy depth)]
      | e :: r => (e.1, splice depth (e.2.fill t.content) t.listed) :: r
    { b with kids := fun name => lead (others name).length ((others name).foldl join (b.kids name)) }

def join (depth : Nat) (l : List (Nat × Sketch)) (t : Sketch) : List (Nat × Sketch) :=
  match l with
  | [] => [(1, t.copy depth)]
  | e :: r => (e.1, (e.2.fill t.content).splice depth t.listed) :: r

theorem splice_succ (depth : Nat) (b : Sketch) (others : String → List Sketch) : b.splice (depth + 1) others =
    { b with kids := fun name => lead (others name).length ((others name).foldl (join depth) (b.kids name)) } := rfl

end Sketch

namespace Forest

variable {f g h : Forest} {duty : NodeId → Duty} {c d e p x D : Nat} {name : String} {v : Nat → Sketch}
  {items : List (String × (Nat → Sketch))} {es : List NodeId}

def under (items : List (String × (Nat → Sketch))) (depth : Nat) (name : String) : List Sketch :=
  (items.filter fun i => i.1 == name).map fun i => i.2 depth

theorem under_cons (i : String × (Nat → Sketch)) : under (i :: items) D name =
    if i.1 = name then i.2 D :: under items D name else under items D name := by
  by_cases hi : i.1 = name <;> simp [under, hi]

/-- **One sketch has been merged into the children of a node**, under a name; a child stands for it. -/
structure Joins (duty : NodeId → Duty) (p : NodeId) (name : String) (v : Nat → Sketch) (f g : Forest) (e : NodeId) :
    Prop where
  grown : Grown p f g
  tidy : g.Tidy
  keeps : Retains f g
  content : (g.node p).content = (f.node p).content
  found : g.childNamed? p name = some e
  kids : ∀ d D, d ≤ D → g.kids duty d p = Function.update (f.kids duty d p) name
    (Sketch.join d (f.kids duty d p name) (v D))

/-- **Some sketches have been merged into the children of a node**, one after another. -/
structure Gathers (duty : NodeId → Duty) (p : NodeId) (items : List (String × (Nat → Sketch))) (f g : Forest)
    (es : List NodeId) : Prop where
  grown : Grown p f g
  tidy : g.Tidy
  keeps : Retains f g
  content : (g.node p).content = (f.node p).content
  found : List.Forall₂ (fun i e => g.childNamed? p i.1 = some e) items es
  kids : ∀ d D, d ≤ D → ∀ name, g.kids duty d p name = (under items D name).foldl (Sketch.join d) (f.kids duty d p name)

structure Spliced (duty : NodeId → Duty) (p : NodeId) (others : Nat → String → List Sketch) (f g : Forest) : Prop where
  grown : Grown p f g
  tidy : g.Tidy
  keeps : Retains f g
  sketch : ∀ d D, d ≤ D + 1 → g.sketch duty d p = (f.sketch duty d p).splice d (others D)

theorem Gathers.nil (hf : f.Linked) (htidy : f.Tidy) : Gathers duty p [] f f [] where
  grown := .refl hf
  tidy := htidy
  keeps := .refl
  content := rfl
  found := .nil
  kids := fun _ _ _ _ => rfl

theorem Gathers.snoc (hg : Gathers duty p items f g es) (hf : f.Linked) (hh : Joins duty p name v g h e) :
    Gathers duty p (items ++ [(name, v)]) f h (es ++ [e]) where
  grown := hg.grown.trans hf hh.grown
  tidy := hh.tidy
  keeps := hg.keeps.trans hh.keeps
  content := hh.content.trans hg.content
  found := List.rel_append (hg.found.imp fun _ _ he => hh.keeps he) (.cons hh.found .nil)
  kids := by
    intro d D hd s
    rw [hh.kids d D hd, under, List.filter_append, List.map_append, List.foldl_append]
    by_cases hs : s = name
    · subst hs
      rw [Function.update_self, hg.kids d D hd]
      simp [under]
    · rw [Function.update_of_ne hs, hg.kids d D hd]
      simp [under, Ne.symm hs]

/-! ## The order that is restored -/

section Reorder

variable (hg : Gathers duty p items f g es)
include hg

theorem Gathers.mem_children (he : e ∈ es) : e ∈ g.children p := by
  have hfound := hg.found
  clear hg
  induction hfound with
  | nil => cases he
  | cons hc _ ih =>
    rcases List.mem_cons.1 he with rfl | he
    · exact List.mem_of_find?_eq_some hc
    · exact ih he

theorem Gathers.filter_eq : es.filter (fun e => (g.node e).name == name) =
    List.replicate (under items D name).length ((g.childNamed? p name).getD 0) := by
  have hfound := hg.found
  clear hg
  induction hfound with
  | nil => rfl
  | @cons i e items es hc _ ih =>
    have hname : (g.node e).name = i.1 := by simpa using List.find?_some hc
    rw [List.filter_cons, ih, hname, under_cons]
    by_cases hi : i.1 = name
    · subst hi
      simp [hc, List.replicate_succ]
    · simp [hi]

theorem Gathers.named_reorder (s : String) : (g.reorder p es).named p s =
    es.filter (fun e => (g.node e).name == s) ++ (g.named p s).filter fun c => !es.contains c := by
  have hnames (x : Nat) : ((g.reorder p es).node x).name = (g.node x).name := (sameShape_reorder es).name x
  rw [named, children_reorder fun _ => hg.mem_children, front, List.filter_append]
  simp only [hnames, named, List.filter_filter, Bool.and_comm]

/-- **The first child of a name, once for each sketch**, and then the others. -/
theorem Gathers.named_eq (s : String) : (g.reorder p es).named p s =
    if (under items D s).length = 0 then g.named p s
    else List.replicate (under items D s).length ((g.childNamed? p s).getD 0) ++
      (g.named p s).filter (· != (g.childNamed? p s).getD 0) := by
  have hmem {c : Nat} (hc : c ∈ g.named p s) :
      c ∈ es ↔ c ∈ List.replicate (under items D s).length ((g.childNamed? p s).getD 0) := by
    rw [← hg.filter_eq, List.mem_filter, (mem_named.1 hc).2, beq_self_eq_true, and_iff_left rfl]
  rw [hg.named_reorder, hg.filter_eq (D := D)]
  split
  · rename_i hzero
    rw [hzero, List.replicate_zero, List.nil_append, List.filter_eq_self]
    intro c hc
    simp [hmem hc, hzero]
  · rename_i hzero
    refine congrArg _ (List.filter_congr fun c hc => ?_)
    rw [Bool.eq_iff_iff]
    simp [hmem hc, hzero]

theorem Gathers.exists_first {s : String} (h : (under items D s).length ≠ 0) : ∃ c, g.childNamed? p s = some c := by
  rw [← Option.ne_none_iff_exists', ne_eq, ← named_eq_nil]
  have hne : es.filter (fun e => (g.node e).name == s) ≠ [] := by
    rwa [hg.filter_eq (D := D), ne_eq, List.replicate_eq_nil_iff]
  obtain ⟨e, he⟩ := List.exists_mem_of_ne_nil _ hne
  obtain ⟨hes, hname⟩ := List.mem_filter.1 he
  exact List.ne_nil_of_mem (mem_named.2 ⟨hg.mem_children hes, by simpa using hname⟩)

theorem Gathers.tally_eq (s : String) : Grouped ((g.reorder p es).named p s) ∧
    tally ((g.reorder p es).named p s) = lead (under items D s).length (tally (g.named p s)) := by
  rw [hg.named_eq (D := D)]
  split
  · rename_i hzero
    rw [hzero, lead_zero]
    exact ⟨hg.tidy p s, rfl⟩
  · rename_i hzero
    obtain ⟨c, hc⟩ := hg.exists_first hzero
    rw [hc]
    exact (hg.tidy p s).front (head?_named.trans hc) (Nat.pos_of_ne_zero hzero)

theorem Gathers.childNamed?_reorder (s : String) : (g.reorder p es).childNamed? p s = g.childNamed? p s := by
  rw [← head?_named, hg.named_eq (D := 0)]
  split
  · exact head?_named
  · rename_i hzero
    obtain ⟨c, hc⟩ := hg.exists_first hzero
    rw [hc, List.head?_append_of_ne_nil _ (by simpa using hzero), List.head?_replicate, if_neg hzero]
    rfl

/-- **When the order is restored, the sketches are merged into the node.** -/
theorem Gathers.spliced (hf : f.Linked) : Spliced duty p (under items) f (g.reorder p es) := by
  have hshape := sameShape_reorder (f := g) (p := p) es
  have hother {x : Nat} (hx : x ≠ p) (s : String) : (g.reorder p es).named x s = g.named x s :=
    named_congr (congrArg Node.children (hshape.other hx)) fun c _ => hshape.name c
  refine ⟨hg.grown.trans hf (hshape.grown hg.grown.linked), fun x s => ?_, fun x s c hc => ?_, fun d D hd => ?_⟩
  · by_cases hx : x = p
    · exact hx ▸ (hg.tally_eq (D := 0) s).1
    · rw [hother hx]
      exact hg.tidy x s
  · by_cases hx : x = p
    · subst hx
      rw [hg.childNamed?_reorder]
      exact hg.keeps hc
    · rw [← head?_named, hother hx, head?_named]
      exact hg.keeps hc
  · have hsame : ((g.reorder p es).node p).content = (g.node p).content := field_modify Node.content fun _ => rfl
    have hcontent := hsame.trans hg.content
    cases d with
    | zero => rw [sketch, hcontent]; rfl
    | succ d =>
      rw [sketch_succ, sketch_succ, Sketch.splice_succ, hcontent]
      congr 1
      funext s
      have hsame {e : Nat × Nat} (he : e ∈ tally (g.named p s)) :
          (g.reorder p es).sketch duty d e.2 = g.sketch duty d e.2 := by
        refine sketch_congr hg.grown.linked fun y hy => .of_eq (hshape.other ?_)
        rintro rfl
        exact hg.grown.linked.not_below_parent (hg.grown.linked.mem_of_tally he).1 hy
      have hkids : (tally (g.named p s)).map (fun e => (e.1, (g.reorder p es).sketch duty d e.2)) = g.kids duty d p s :=
        List.map_congr_left fun e he => by rw [hsame he]
      rw [Forest.kids, (hg.tally_eq (D := D) s).2, ← lead_map, hkids, hg.kids d D (by omega)]

end Reorder

end Forest
end SignalCatalog
