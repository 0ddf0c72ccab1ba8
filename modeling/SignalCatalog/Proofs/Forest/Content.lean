import Mathlib.Data.List.Find
import SignalCatalog.Proofs.Forest.Route
/-!
# Contents by path

What a subtree holds, as a function of the path from its top.  Everything that is added to a tree follows one rule: a
free place takes the new content, a placeholder takes the new payload and is one no more, and any other node keeps what
it has.
-/
namespace SignalCatalog

structure Content where
  payload : Payload
  autogenerated : Bool

def Node.content (n : Node) : Content := ⟨n.payload, n.autogenerated⟩

/-- **What becomes of a place** where a content is to be put. -/
def Content.onto (new : Content) : Option Content → Content
  | none => new
  | some old => if old.autogenerated then ⟨new.payload, false⟩ else old

theorem Content.onto_declared {c : Content} (hc : c.autogenerated = false) (o : Option Content) :
    (c.onto o).autogenerated = false := by
  cases o with
  | none => exact hc
  | some old => by_cases hold : old.autogenerated = true <;> simp_all [Content.onto]

abbrev Layer := List String → Option Content

namespace Layer

variable {l o : Layer} {p q r : List String} {c : Content}

def single (c : Content) : Layer
  | [] => some c
  | _ :: _ => none

/-- **A layer put on another**, place by place. -/
def fill (l o : Layer) : Layer := fun q =>
  match o q with
  | none => l q
  | some c => some (c.onto (l q))

/-- A layer further down, below a path. -/
def shift (l : Layer) : List String → Layer
  | [], q => l q
  | _ :: _, [] => none
  | n :: p, m :: q => if n = m then l.shift p q else none

def below (l : Layer) (p : List String) : Layer := fun q => l (p ++ q)

theorem fill_of_none (h : o q = none) : l.fill o q = l q := by rw [fill, h]

theorem fill_of_some (h : o q = some c) : l.fill o q = some (c.onto (l q)) := by rw [fill, h]

theorem fill_eq_none : l.fill o q = none ↔ l q = none ∧ o q = none := by
  cases h : o q with
  | none => simp [fill_of_none h]
  | some c => simp [fill_of_some h]

@[simp] theorem shift_nil : l.shift [] = l := by funext q; cases q <;> rfl

theorem shift_append (p q : List String) : l.shift p (p ++ q) = l q := by
  induction p with
  | nil => rw [shift_nil, List.nil_append]
  | cons n p ih => rw [List.cons_append, shift, if_pos rfl, ih]

theorem shift_eq_some : l.shift p q = some c ↔ ∃ r, q = p ++ r ∧ l r = some c := by
  constructor
  · intro h
    induction p generalizing q with
    | nil => exact ⟨q, rfl, by rwa [shift_nil] at h⟩
    | cons n p ih =>
      cases q with
      | nil => cases h
      | cons m q =>
        rw [shift] at h
        split at h
        · rename_i hnm
          obtain ⟨r, rfl, hr⟩ := ih h
          exact ⟨r, by rw [hnm, List.cons_append], hr⟩
        · cases h
  · rintro ⟨r, rfl, hr⟩
    rw [shift_append, hr]

theorem shift_of_not_below (h : ¬ p <+: q) : l.shift p q = none := by
  cases hs : l.shift p q with
  | none => rfl
  | some c =>
    obtain ⟨r, rfl, -⟩ := shift_eq_some.1 hs
    exact absurd (List.prefix_append p r) h

theorem shift_shift : (l.shift r).shift p = l.shift (p ++ r) := by
  induction p with
  | nil => rw [shift_nil, List.nil_append]
  | cons n p ih =>
    funext q
    cases q with
    | nil => rfl
    | cons m q => rw [List.cons_append, shift, shift, ih]

theorem or_shift {o' : Layer} : (fun q => (o.shift p q).or (o'.shift p q)) = shift (fun q => (o q).or (o' q)) p := by
  induction p with
  | nil => simp
  | cons n p ih =>
    funext q
    cases q with
    | nil => rfl
    | cons m q =>
      rw [shift, shift, shift]
      split
      · exact congrFun ih q
      · rfl

theorem fill_fill {o' : Layer} (h : ∀ q, o q = none ∨ o' q = none) :
    (l.fill o).fill o' = l.fill fun q => (o q).or (o' q) := by
  funext q
  rcases h q with ho | ho'
  · cases ho' : o' q with
    | none => rw [fill_of_none ho', fill_of_none ho, fill_of_none (by simp [ho, ho'])]
    | some c => rw [fill_of_some ho', fill_of_none ho, fill_of_some (by rw [ho, Option.none_or, ho'])]
  · rw [fill_of_none ho']
    cases ho : o q with
    | none => rw [fill_of_none ho, fill_of_none (by simp [ho, ho'])]
    | some c => rw [fill_of_some ho, fill_of_some (by rw [ho, Option.some_or])]

end Layer

namespace Forest

variable {f : Forest} {a b x : Nat} {p q : List String} {c : Content} {name : String}

/-- **The contents of a subtree**, by the path from its top. -/
def content? (f : Forest) (a : NodeId) : Layer := fun q => (f.descend? a q).map fun x => (f.node x).content

def contents? (f : Forest) (tops : List NodeId) : Layer
  | [] => none
  | name :: q => (tops.find? fun t => (f.node t).name == name).bind fun t => f.content? t q

@[simp] theorem content?_nil : f.content? a [] = some (f.node a).content := rfl

theorem content?_cons : f.content? a (name :: q) = (f.childNamed? a name).bind fun c => f.content? c q := by
  rw [content?, descend?]
  cases f.childNamed? a name <;> rfl

theorem contents?_children : f.contents? (f.children a) (name :: q) = f.content? a (name :: q) := content?_cons.symm

theorem content?_of_route (hf : f.Linked) (hd : f.DistinctBelow a) (h : f.Route a q x) :
    f.content? a q = some (f.node x).content := by
  rw [content?, (hf.descend?_eq_some hd).2 h]
  rfl

theorem content?_eq_some (hf : f.Linked) (hd : f.DistinctBelow a) :
    f.content? a q = some c ↔ ∃ x, f.Route a q x ∧ (f.node x).content = c := by
  simp only [content?, Option.map_eq_some_iff, hf.descend?_eq_some hd]

theorem content?_eq_none (hf : f.Linked) (hd : f.DistinctBelow a) : f.content? a q = none ↔ ∀ x, ¬ f.Route a q x := by
  rw [Option.eq_none_iff_forall_ne_some]
  constructor
  · exact fun h x hx => h _ (content?_of_route hf hd hx)
  · intro h c hc
    obtain ⟨x, hx, -⟩ := (content?_eq_some hf hd).1 hc
    exact h x hx

theorem descend?_append (f : Forest) (a : NodeId) (p q : List String) :
    f.descend? a (p ++ q) = (f.descend? a p).bind fun b => f.descend? b q := by
  induction p generalizing a with
  | nil => rfl
  | cons name p ih =>
    rw [List.cons_append, descend?, descend?]
    cases f.childNamed? a name with
    | none => rfl
    | some c => exact ih c

theorem content?_append (hf : f.Linked) (hd : f.DistinctBelow a) (h : f.Route a p b) :
    f.content? a (p ++ q) = f.content? b q := by
  rw [content?, content?, descend?_append, (hf.descend?_eq_some hd).2 h]
  rfl

theorem contents?_congr {g : Forest} {ts : List Nat} (hname : ∀ t ∈ ts, (g.node t).name = (f.node t).name)
    (hcontent : ∀ t ∈ ts, g.content? t = f.content? t) : g.contents? ts = f.contents? ts := by
  funext q
  cases q with
  | nil => rfl
  | cons name q =>
    have hfind : (ts.find? fun t => (g.node t).name == name) = ts.find? fun t => (f.node t).name == name :=
      List.find?_congr fun t ht => by rw [hname t ht]
    rw [contents?, contents?, hfind]
    cases h : ts.find? fun t => (f.node t).name == name with
    | none => rfl
    | some t => exact congrFun (hcontent t (List.mem_of_find?_eq_some h)) q

theorem shift_eq_none_or {ts : List Nat} {l : Layer} (h : ∀ s ∈ ts, (f.node s).name ≠ name) (q : List String) :
    l.shift [name] q = none ∨ f.contents? ts q = none := by
  cases q with
  | nil => exact .inl rfl
  | cons first q =>
    by_cases hq : name = first
    · refine .inr ?_
      rw [contents?, List.find?_eq_none.2 fun s hs => by simpa [← hq] using h s hs]
      rfl
    · exact .inl (by rw [Layer.shift, if_neg hq])

theorem contents?_cons {t : Nat} {ts : List Nat} (h : ∀ s ∈ ts, (f.node s).name ≠ (f.node t).name) :
    f.contents? (t :: ts) = fun q => ((f.content? t).shift [(f.node t).name] q).or (f.contents? ts q) := by
  funext q
  cases q with
  | nil => rfl
  | cons name q =>
    rw [contents?, Layer.shift, List.find?_cons]
    by_cases hn : (f.node t).name = name
    · have hts : f.contents? ts (name :: q) = none :=
        (shift_eq_none_or (l := fun _ => some (f.node t).content) h (name :: q)).resolve_left (by
          rw [Layer.shift, if_pos hn, Layer.shift_nil]
          simp)
      rw [hts, if_pos hn, Layer.shift_nil, Option.or_none, beq_iff_eq.2 hn]
      rfl
    · rw [if_neg hn, Option.none_or, beq_eq_false_iff_ne.2 hn]
      rfl

end Forest

abbrev Tree.contents (t : Tree) : Layer := t.content? t.root

end SignalCatalog
