import Mathlib.Data.List.Nodup
import SignalCatalog.Proofs.Forest.Growth
import SignalCatalog.Proofs.Forest.Subtree
import SignalCatalog.Proofs.QualifiedName
import SignalCatalog.Proofs.Steps
import SignalCatalog.Tree.Build
/-!
# Edges follow names

A build attaches a node to the node of its parent's name and to no other, whatever order the nodes come in.  The depth
of a name is then a rank, and the links of the forest agree.
-/
namespace SignalCatalog
namespace Builder

open Forest (ChildrenNodup)

variable {b : Builder} {fqn name : String} {id p x i j : Nat} {n : Node}

/-- **A builder that attaches by name**: each node has an entry of its own, names differ, and a node's parent is the
node of its parent's name. -/
structure Sound (b : Builder) : Prop where
  ids : b.placed.map (·.2) = List.range b.forest.count
  names_nodup : (b.placed.map (·.1)).Nodup
  named : ∀ e ∈ b.placed, (b.forest.node e.2).name = QualifiedName.last e.1
  edges : ∀ e ∈ b.placed, ∀ p, b.forest.parent? e.2 = some p →
    ∃ name, QualifiedName.parent? e.1 = some name ∧ (name, p) ∈ b.placed
  mem_children : ∀ {p c : Nat}, c ∈ b.forest.children p ↔ b.forest.parent? c = some p
  children_nodup : b.forest.ChildrenNodup

namespace Sound

theorem lt_count (h : b.Sound) (he : (fqn, id) ∈ b.placed) : id < b.forest.count := by
  have : id ∈ b.placed.map (·.2) := List.mem_map_of_mem he
  rw [h.ids] at this
  exact List.mem_range.1 this

theorem length_placed (h : b.Sound) : b.placed.length = b.forest.count := by
  rw [← List.length_map (·.2), h.ids, List.length_range]

theorem exists_placed (h : b.Sound) (hx : x < b.forest.count) : ∃ fqn, (fqn, x) ∈ b.placed := by
  have hmem : x ∈ b.placed.map (·.2) := by
    rw [h.ids]
    exact List.mem_range.2 hx
  obtain ⟨⟨fqn, _⟩, he, rfl⟩ := List.mem_map.1 hmem
  exact ⟨fqn, he⟩

theorem id_unique (h : b.Sound) (hi : (fqn, i) ∈ b.placed) (hj : (fqn, j) ∈ b.placed) : i = j :=
  congrArg Prod.snd (List.inj_on_of_nodup_map h.names_nodup hi hj rfl)

theorem name_unique (h : b.Sound) (hi : (fqn, i) ∈ b.placed) (hj : (name, i) ∈ b.placed) : fqn = name :=
  congrArg Prod.fst (List.inj_on_of_nodup_map (h.ids ▸ List.nodup_range) hi hj rfl)

theorem find?_eq_some (h : b.Sound) : b.find? fqn = some id ↔ (fqn, id) ∈ b.placed := by
  rw [find?, Option.map_eq_some_iff]
  constructor
  · rintro ⟨e, he, rfl⟩
    obtain rfl : e.1 = fqn := by simpa using List.find?_some he
    exact List.mem_of_find?_eq_some he
  · intro he
    cases hf : b.placed.find? fun e => e.1 == fqn with
    | none => exact absurd (List.find?_eq_none.1 hf _ he) (by simp)
    | some e =>
      obtain rfl : e.1 = fqn := by simpa using List.find?_some hf
      exact ⟨e, rfl, h.id_unique (List.mem_of_find?_eq_some hf) he⟩

end Sound

theorem find?_eq_none : b.find? fqn = none ↔ fqn ∉ b.placed.map (·.1) := by
  rw [find?, Option.map_eq_none_iff, List.find?_eq_none]
  simp only [beq_iff_eq, List.mem_map, not_exists, not_and]

namespace Sound

/-- **The links agree**: every step up takes a dot off the name. -/
theorem linked (h : b.Sound) : b.forest.Linked where
  mem_children := h.mem_children
  ranked := by
    refine ⟨fun x => ((b.placed.find? fun e => e.2 == x).map fun e => QualifiedName.depth e.1).getD 0,
      fun {c p} hc => ?_⟩
    have hrank : ∀ {fqn : String} {x : Nat}, (fqn, x) ∈ b.placed →
        ((b.placed.find? fun e => e.2 == x).map fun e => QualifiedName.depth e.1).getD 0 = QualifiedName.depth fqn := by
      intro fqn x hx
      cases hf : b.placed.find? fun e => e.2 == x with
      | none => exact absurd (List.find?_eq_none.1 hf _ hx) (by simp)
      | some e =>
        obtain rfl : e.2 = x := by simpa using List.find?_some hf
        exact congrArg QualifiedName.depth (h.name_unique (List.mem_of_find?_eq_some hf) hx)
    obtain ⟨fqn, he⟩ := h.exists_placed (Forest.lt_count_of_parent? hc)
    obtain ⟨name, hname, hp⟩ := h.edges _ he p hc
    dsimp only
    rw [hrank he, hrank hp, QualifiedName.depth_of_parent? hname]
    omega

theorem parent?_eq_none (h : b.Sound) (he : (fqn, id) ∈ b.placed) (hfqn : QualifiedName.parent? fqn = none) :
    b.forest.parent? id = none := by
  cases hp : b.forest.parent? id with
  | none => rfl
  | some p =>
    obtain ⟨name, hname, -⟩ := h.edges _ he p hp
    rw [hfqn] at hname
    cases hname

/-- **Siblings differ by name**, since nodes do. -/
theorem distinctBelow (h : b.Sound) (a : Nat) : b.forest.DistinctBelow a := by
  intro p c d _ hc hd hcd
  obtain ⟨fqn, he⟩ := h.exists_placed (Forest.lt_count_of_parent? hc)
  obtain ⟨fqn', he'⟩ := h.exists_placed (Forest.lt_count_of_parent? hd)
  obtain ⟨name, hname, hp⟩ := h.edges _ he p hc
  obtain ⟨name', hname', hp'⟩ := h.edges _ he' p hd
  obtain rfl := h.name_unique hp hp'
  rw [h.named _ he, h.named _ he'] at hcd
  have : fqn = fqn' := QualifiedName.segments_injective (by
    rw [QualifiedName.segments_of_parent? hname, QualifiedName.segments_of_parent? hname', hcd])
  exact h.id_unique he (this ▸ he')

end Sound

/-! ## The steps of a build -/

theorem mem_place : (fqn, b.forest.count) ∈ (b.place fqn n).1.placed := List.mem_append_right _ List.mem_cons_self

theorem parent?_place (hp : n.parent = none) : (b.place fqn n).1.forest.parent? x = b.forest.parent? x := by
  change ((b.forest.add n).1.node x).parent = _
  rw [Forest.node_add]
  split
  · rename_i hx
    rw [hp, hx, Forest.parent?_of_count_le (Nat.le_refl _)]
  · rfl

theorem parent?_place_self (hp : n.parent = none) : (b.place fqn n).1.forest.parent? b.forest.count = none :=
  (parent?_place hp).trans (Forest.parent?_of_count_le (Nat.le_refl _))

theorem children_place (hc : n.children = []) : (b.place fqn n).1.forest.children x = b.forest.children x := by
  change ((b.forest.add n).1.node x).children = _
  rw [Forest.node_add]
  split
  · rename_i hx
    rw [hc, hx, Forest.children_of_count_le (Nat.le_refl _)]
  · rfl

namespace Sound

theorem place (h : b.Sound) (hnew : b.find? fqn = none) (hn : n.name = QualifiedName.last fqn) (hp : n.parent = none)
    (hc : n.children = []) : (b.place fqn n).1.Sound := by
  have hold : ∀ e ∈ b.placed, (b.place fqn n).1.forest.node e.2 = b.forest.node e.2 := by
    intro e he
    have := h.lt_count (show (e.1, e.2) ∈ b.placed from he)
    exact (Forest.node_add n).trans (if_neg (Nat.ne_of_lt this))
  refine ⟨?_, ?_, fun e he => ?_, fun e he p hep => ?_, ?_, fun p => ?_⟩
  · change (b.placed ++ [(fqn, b.forest.count)]).map (·.2) = List.range (b.forest.add n).1.count
    rw [List.map_append, h.ids, Forest.count_add, List.range_succ]
    rfl
  · change ((b.placed ++ [(fqn, b.forest.count)]).map (·.1)).Nodup
    rw [List.map_append, List.nodup_append]
    refine ⟨h.names_nodup, List.nodup_singleton _, fun a ha c hc => ?_⟩
    rw [List.mem_singleton.1 hc]
    rintro rfl
    exact find?_eq_none.1 hnew ha
  · rcases List.mem_append.1 he with he | he
    · rw [hold e he, h.named e he]
    · rw [List.mem_singleton.1 he]
      change ((b.forest.add n).1.node b.forest.count).name = _
      rw [Forest.node_add, if_pos rfl, hn]
  · rw [parent?_place hp] at hep
    rcases List.mem_append.1 he with he | he
    · obtain ⟨name, hname, hmem⟩ := h.edges e he p hep
      exact ⟨name, hname, List.mem_append_left _ hmem⟩
    · rw [List.mem_singleton.1 he] at hep
      exact absurd (Forest.lt_count_of_parent? hep) (Nat.lt_irrefl _)
  · intro p c
    rw [children_place hc, parent?_place hp, h.mem_children]
  · rw [children_place hc]
    exact h.children_nodup p

theorem attach (h : b.Sound) (he : (fqn, id) ∈ b.placed) (hp : (name, p) ∈ b.placed)
    (hname : QualifiedName.parent? fqn = some name) (hfree : b.forest.parent? id = none) : (b.attach p id).Sound := by
  have hnode : ∀ y : Nat, (b.attach p id).forest.node y = _ :=
    fun y => Forest.node_attach hfree (h.lt_count he) (h.lt_count hp)
  refine ⟨?_, h.names_nodup, fun e he => ?_, fun e he' q hq => ?_, ?_, fun q => ?_⟩
  · change b.placed.map (·.2) = List.range (b.forest.attach p id).count
    rw [Forest.count_attach, h.ids]
  · rw [hnode]
    exact h.named e he
  · rw [Forest.parent?, hnode] at hq
    dsimp only at hq
    split at hq
    · rename_i hid
      cases hq
      obtain rfl : e.1 = fqn := h.name_unique (i := id) (hid ▸ he') he
      exact ⟨name, hname, hp⟩
    · exact h.edges e he' q hq
  · intro q c
    rw [Forest.children, Forest.parent?, hnode, hnode]
    dsimp only
    by_cases hc : c = id
    · rw [if_pos hc, hc]
      have hno : id ∉ b.forest.children q := by
        intro hm
        rw [h.mem_children, hfree] at hm
        cases hm
      by_cases hq : q = p
      · simp [hq]
      · rw [if_neg hq]
        exact iff_of_false hno (by simpa using Ne.symm hq)
    · rw [if_neg hc, ← h.mem_children]
      by_cases hq : q = p
      · rw [if_pos hq, List.mem_append, List.mem_singleton, or_iff_left hc]
      · rw [if_neg hq]
  · rw [Forest.children, hnode]
    dsimp only
    split
    · refine List.nodup_append.2 ⟨h.children_nodup q, List.nodup_singleton _, fun c hc d hd => ?_⟩
      rw [List.mem_singleton.1 hd]
      rintro rfl
      rw [h.mem_children, hfree] at hc
      cases hc
    · exact h.children_nodup q

theorem declare (h : b.Sound) (id : NodeId) (pl : Payload) :
    ({ b with forest := b.forest.modify id fun n => n.declare pl } : Builder).Sound := by
  have hshape := Forest.sameShape_declare (a := id) (f := b.forest) pl
  refine ⟨?_, h.names_nodup, fun e he => ?_, fun e he p hp => ?_, ?_, ?_⟩
  · exact h.ids.trans (congrArg List.range hshape.count.symm)
  · exact (hshape.name e.2).trans (h.named e he)
  · exact h.edges e he p ((hshape.parent? e.2).symm.trans hp)
  · intro p c
    exact hshape.mem_children.trans (h.mem_children.trans (by rw [hshape.parent?]))
  · exact Forest.childrenNodup_modify h.children_nodup fun _ hn => hn

end Sound

/-! ## What a step leaves alone -/

/-- **The second builder has all that the first has**, with the same contents and edges. -/
structure Extends (b b' : Builder) : Prop where
  placed : b.placed <+: b'.placed
  content : ∀ e ∈ b.placed, (b'.forest.node e.2).content = (b.forest.node e.2).content
  parent? : ∀ {x p : Nat}, b.forest.parent? x = some p → b'.forest.parent? x = some p

namespace Extends

variable {b' b'' : Builder}

theorem refl : Extends b b := ⟨List.prefix_refl _, fun _ _ => rfl, id⟩

theorem trans (h : Extends b b') (h' : Extends b' b'') : Extends b b'' where
  placed := h.placed.trans h'.placed
  content := fun e he => (h'.content e (h.placed.subset he)).trans (h.content e he)
  parent? := fun hp => h'.parent? (h.parent? hp)

theorem count_le (h : Extends b b') (hb : b.Sound) (hb' : b'.Sound) : b.forest.count ≤ b'.forest.count := by
  rw [← hb.length_placed, ← hb'.length_placed]
  exact h.placed.length_le

theorem mem (h : Extends b b') {e : String × NodeId} (he : e ∈ b.placed) : e ∈ b'.placed := h.placed.subset he

end Extends

theorem extends_place (h : b.Sound) (hp : n.parent = none) : Extends b (b.place fqn n).1 where
  placed := List.prefix_append _ _
  content := by
    intro e he
    have := h.lt_count (show (e.1, e.2) ∈ b.placed from he)
    exact congrArg Node.content ((Forest.node_add n).trans (if_neg (Nat.ne_of_lt this)))
  parent? := fun h => (parent?_place hp).trans h

theorem content_place : ((b.place fqn n).1.forest.node b.forest.count).content = n.content :=
  congrArg Node.content ((Forest.node_add n).trans (if_pos rfl))

@[simp] theorem waiting_place : (b.place fqn n).1.waiting = b.waiting := rfl

@[simp] theorem waiting_attach : (b.attach p id).waiting = b.waiting := rfl

theorem parent?_attach (hfree : b.forest.parent? id = none) (hid : id < b.forest.count) (hp : p < b.forest.count) :
    (b.attach p id).forest.parent? x = if x = id then some p else b.forest.parent? x :=
  congrArg Node.parent (Forest.node_attach (y := x) hfree hid hp)

theorem content_attach (hfree : b.forest.parent? id = none) (hid : id < b.forest.count) (hp : p < b.forest.count) :
    ((b.attach p id).forest.node x).content = (b.forest.node x).content :=
  (congrArg Node.content (Forest.node_attach (y := x) hfree hid hp)).trans rfl

theorem extends_attach (hfree : b.forest.parent? id = none) (hid : id < b.forest.count) (hp : p < b.forest.count) :
    Extends b (b.attach p id) where
  placed := List.prefix_refl _
  content := fun _ _ => content_attach hfree hid hp
  parent? := fun {x q} hx => by
    rw [parent?_attach hfree hid hp, if_neg, hx]
    rintro rfl
    rw [hfree] at hx
    cases hx

/-! ## Adoption -/

structure Adoptable (b : Builder) (fqn : String) (cs : List Nat) : Prop where
  nodup : cs.Nodup
  free : ∀ c ∈ cs, b.forest.parent? c = none
  named : ∀ c ∈ cs, ∃ name, (name, c) ∈ b.placed ∧ QualifiedName.parent? name = some fqn

theorem sound_attachAll (h : b.Sound) (hid : (fqn, id) ∈ b.placed) {cs : List Nat} (hcs : b.Adoptable fqn cs) :
    (cs.foldl (fun b c => b.attach id c) b).Sound ∧ Extends b (cs.foldl (fun b c => b.attach id c) b) ∧
      (cs.foldl (fun b c => b.attach id c) b).placed = b.placed ∧
      ∀ x, (cs.foldl (fun b c => b.attach id c) b).forest.parent? x =
        if x ∈ cs then some id else b.forest.parent? x := by
  induction cs generalizing b with
  | nil => exact ⟨h, .refl, rfl, fun x => rfl⟩
  | cons c cs ih =>
    obtain ⟨hc, hnodup⟩ := List.nodup_cons.1 hcs.nodup
    obtain ⟨name, hmem, hname⟩ := hcs.named c List.mem_cons_self
    have hfree := hcs.free c List.mem_cons_self
    have hparent : ∀ x : Nat, (b.attach id c).forest.parent? x =
        if x = c then some id else b.forest.parent? x := fun x =>
      parent?_attach hfree (h.lt_count hmem) (h.lt_count hid)
    obtain ⟨hs, hext, hplaced, hall⟩ := ih (h.attach hmem hid hname hfree) hid
      ⟨hnodup, fun d hd => by rw [hparent, if_neg (ne_of_mem_of_not_mem hd hc), hcs.free d (List.mem_cons_of_mem _ hd)],
        fun d hd => hcs.named d (List.mem_cons_of_mem _ hd)⟩
    refine ⟨hs, (extends_attach hfree (h.lt_count hmem) (h.lt_count hid)).trans hext, hplaced, fun x => ?_⟩
    rw [List.foldl_cons, hall, hparent]
    by_cases hxc : x = c
    · simp [hxc]
    · simp [hxc]

theorem adopt_eq (b : Builder) (fqn : String) (id : NodeId) : b.adopt fqn id =
    { ((b.waiting.filter fun w => w.1 == fqn).map (·.2)).foldl (fun b c => b.attach id c) b with
      waiting := b.waiting.filter fun w => w.1 != fqn } := by
  have hfold : ∀ (cs : List NodeId) (b : Builder), (cs.foldl (fun b c => b.attach id c) b) =
      { b with forest := cs.foldl (fun f c => f.attach id c) b.forest } := by
    intro cs
    induction cs with
    | nil => exact fun _ => rfl
    | cons c cs ih => exact fun b => ih (b.attach id c)
  rw [hfold]
  rfl

/-- **Nodes that wait for a parent**: they are free, and wait for the node of their parent's name. -/
structure Waiting (b : Builder) : Prop where
  nodup : (b.waiting.map (·.2)).Nodup
  free : ∀ w ∈ b.waiting, b.forest.parent? w.2 = none
  named : ∀ w ∈ b.waiting, ∃ name, (name, w.2) ∈ b.placed ∧ QualifiedName.parent? name = some w.1

theorem Waiting.adoptable (h : b.Waiting) (fqn : String) :
    b.Adoptable fqn ((b.waiting.filter fun w => w.1 == fqn).map (·.2)) where
  nodup := h.nodup.sublist (List.filter_sublist.map _)
  free := by
    intro c hc
    obtain ⟨w, hw, rfl⟩ := List.mem_map.1 hc
    exact h.free w (List.mem_of_mem_filter hw)
  named := by
    intro c hc
    obtain ⟨w, hw, rfl⟩ := List.mem_map.1 hc
    obtain ⟨name, hmem, hname⟩ := h.named w (List.mem_of_mem_filter hw)
    have hfqn : w.1 = fqn := by simpa using (List.mem_filter.1 hw).2
    exact ⟨name, hmem, hfqn ▸ hname⟩

theorem adopt_spec (h : b.Sound) (hw : b.Waiting) (hid : (fqn, id) ∈ b.placed) :
    (b.adopt fqn id).Sound ∧ (b.adopt fqn id).Waiting ∧ Extends b (b.adopt fqn id) ∧
    (b.adopt fqn id).placed = b.placed ∧
      ∀ x, (b.adopt fqn id).forest.parent? x =
        if x ∈ (b.waiting.filter fun w => w.1 == fqn).map (·.2) then some id else b.forest.parent? x := by
  obtain ⟨hs, hext, hplaced, hall⟩ := sound_attachAll h hid (hw.adoptable fqn)
  rw [adopt_eq]
  refine ⟨⟨hs.ids, hs.names_nodup, hs.named, hs.edges, hs.mem_children, hs.children_nodup⟩,
    ⟨hw.nodup.sublist (List.filter_sublist.map _), fun w hmem => ?_, fun w hmem => ?_⟩,
    ⟨hext.placed, hext.content, hext.parent?⟩, hplaced, hall⟩
  · obtain ⟨hmem, hne⟩ := List.mem_filter.1 hmem
    refine (hall w.2).trans ((if_neg fun hc => ?_).trans (hw.free w hmem))
    obtain ⟨w', hw', heq⟩ := List.mem_map.1 hc
    obtain ⟨hw', hfqn⟩ := List.mem_filter.1 hw'
    rw [List.inj_on_of_nodup_map hw.nodup hw' hmem heq] at hfqn
    simp only [beq_iff_eq] at hfqn
    simp [hfqn] at hne
  · obtain ⟨name, hmem, hname⟩ := hw.named w (List.mem_of_mem_filter hmem)
    exact ⟨name, hplaced ▸ hmem, hname⟩

/-! ## Missing ancestors -/

theorem sound_placeholder (h : b.Sound) (hnew : b.find? fqn = none) : (b.placeholder fqn).1.Sound :=
  h.place hnew rfl rfl rfl

theorem connectUp_cons_some {path : String} {rest : List String} (h : b.find? path = some p) :
    b.connectUp id (path :: rest) = b.attach p id := by rw [connectUp, h]

theorem connectUp_cons_none {path : String} {rest : List String} (h : b.find? path = none) :
    b.connectUp id (path :: rest) =
      ((b.placeholder path).1.connectUp b.forest.count rest).attach b.forest.count id := by
  rw [connectUp, h]
  rfl

/-- **Placeholders up to an ancestor that is there**: the node is attached, and edges still follow names. -/
theorem sound_connectUp (h : b.Sound) (hid : (fqn, id) ∈ b.placed) (hfree : b.forest.parent? id = none) :
    (b.connectUp id (QualifiedName.ancestors fqn)).Sound ∧ Extends b (b.connectUp id (QualifiedName.ancestors fqn)) ∧
      (b.connectUp id (QualifiedName.ancestors fqn)).waiting = b.waiting ∧
      ∀ x, x < b.forest.count → x ≠ id → (b.connectUp id (QualifiedName.ancestors fqn)).forest.parent? x =
        b.forest.parent? x := by
  -- the induction goes up the name: the new placeholder asks for its own parent first, and leaves the node below
  -- without one
  induction fqn using QualifiedName.parent_induction generalizing b id with
  | _ fqn ih =>
    cases hname : QualifiedName.parent? fqn with
    | none =>
      rw [QualifiedName.ancestors_of_parent?_eq_none hname]
      exact ⟨h, .refl, rfl, fun _ _ _ => rfl⟩
    | some name =>
      rw [QualifiedName.ancestors_of_parent? hname]
      cases hfind : b.find? name with
      | some p =>
        rw [connectUp_cons_some hfind]
        have hp := h.find?_eq_some.1 hfind
        exact ⟨h.attach hid hp hname hfree, extends_attach hfree (h.lt_count hid) (h.lt_count hp), rfl,
          fun x _ hx => (parent?_attach hfree (h.lt_count hid) (h.lt_count hp)).trans (if_neg hx)⟩
      | none =>
        rw [connectUp_cons_none hfind]
        have hplace := sound_placeholder h hfind
        have hext : Extends b (b.place name (.placeholder (QualifiedName.last name))).1 := extends_place h rfl
        have hmem : (name, b.forest.count) ∈ (b.placeholder name).1.placed := mem_place
        have hparent : ∀ x : Nat, (b.placeholder name).1.forest.parent? x = b.forest.parent? x :=
          fun x => parent?_place rfl
        obtain ⟨hs, hext', hwait, hother⟩ := ih name hname hplace hmem (by
          rw [hparent, Forest.parent?_of_count_le (Nat.le_refl _)])
        have hlt := h.lt_count hid
        have hcount : (b.placeholder name).1.forest.count = b.forest.count + 1 := Forest.count_add _
        have hstill := (hother id (by omega) (Nat.ne_of_lt hlt)).trans ((hparent id).trans hfree)
        have hid' := hext'.mem (hext.mem hid)
        refine ⟨hs.attach hid' (hext'.mem hmem) hname hstill,
          (hext.trans hext').trans (extends_attach hstill (hs.lt_count hid') (hs.lt_count (hext'.mem hmem))),
          waiting_attach.trans (hwait.trans waiting_place), fun x hx hxid => ?_⟩
        refine (parent?_attach hstill (hs.lt_count hid') (hs.lt_count (hext'.mem hmem))).trans ((if_neg hxid).trans ?_)
        exact (hother x (by omega) (Nat.ne_of_lt hx)).trans (hparent x)

/-! ## Builds -/

/-- **What every entry preserves** is so after all of them. -/
theorem addAll_induction {P : Builder → Prop} {r : Registry} {mode : BuildMode} {data : Mapping} {b' : Builder}
    (hstep : ∀ b, P b → ∀ e ∈ data, ∀ fqn pl, Payload.read r e.2 = .ok pl → P (b.add mode fqn pl)) (h : P b)
    (hadd : addAll r mode b data = .ok b') : P b' := by
  induction data generalizing b with
  | nil =>
    cases hadd
    exact h
  | cons e data ih =>
    obtain ⟨key, value⟩ := e
    rw [addAll] at hadd
    split at hadd
    · cases hadd
    · split at hadd
      · cases hadd
      · rename_i hpl
        exact ih (fun b hb e he => hstep b hb e (List.mem_cons_of_mem _ he))
          (hstep b h _ List.mem_cons_self _ _ hpl) hadd

end Builder

theorem exists_addAll_of_build {r : Registry} {mode : BuildMode} {data : Mapping} {o : BuildOutcome}
    (h : build r mode data = .ok o) :
    ∃ b, Builder.addAll r mode {} data = .ok b ∧ b.finish mode = .ok o := exists_of_bind_eq_ok h

theorem Builder.build_of_addAll {r : Registry} {mode : BuildMode} {data : Mapping} {b : Builder}
    (h : addAll r mode {} data = .ok b) :
    build r mode data = b.finish mode := by
  rw [build, h]
  rfl

end SignalCatalog
