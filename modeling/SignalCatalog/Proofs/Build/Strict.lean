import SignalCatalog.Proofs.Build.Connect
/-!
# The parts of a strict build

A strict build parts its entries: those that climb to the root through declared parents make the tree, as far as nothing
on the way is marked for removal, and all others stand below the orphan that they climb to.  Nodes are numbered by their
entries, so a list of children is in the order of the entries just when its numbers grow.
-/
namespace SignalCatalog
namespace Builder

open Forest (Linked)

variable {b b' : Builder} {r : Registry} {mode : BuildMode} {data : Mapping}
  {entries : List (String × Payload)} {names : List String} {fqn name root : String} {pl : Payload}
  {id p x y : NodeId} {cs : List NodeId}

/-! ## Children in order -/

/-- **Children and waiting nodes stand in the order in which they came.** -/
structure Ordered (b : Builder) : Prop where
  children : ∀ p, (b.forest.children p).Pairwise (· < ·)
  waiting : (b.waiting.map (·.2)).Pairwise (· < ·)

theorem children_attach (hfree : b.forest.parent? id = none) (hid : id < b.forest.count) (hp : p < b.forest.count) :
    (b.attach p id).forest.children y = if y = p then b.forest.children y ++ [id] else b.forest.children y :=
  congrArg Node.children (Forest.node_attach (y := y) hfree hid hp)

theorem children_attachAll (h : b.Sound) (hid : (fqn, id) ∈ b.placed) (hcs : b.Adoptable fqn cs) :
    (cs.foldl (fun b c => b.attach id c) b).forest.children y =
      if y = id then b.forest.children y ++ cs else b.forest.children y := by
  induction cs using List.reverseRecOn with
  | nil => simp
  | append_singleton cs c ih =>
    have hbefore : b.Adoptable fqn cs :=
      ⟨(List.nodup_append.1 hcs.nodup).1, fun d hd => hcs.free d (List.mem_append_left _ hd),
        fun d hd => hcs.named d (List.mem_append_left _ hd)⟩
    obtain ⟨hs, hext, hplaced, hparent⟩ := sound_attachAll h hid hbefore
    obtain ⟨name, hmem, -⟩ := hcs.named c (by simp)
    have hnotin : c ∉ cs := fun hin => (List.nodup_append.1 hcs.nodup).2.2 c hin c (by simp) rfl
    rw [List.foldl_append, List.foldl_cons, List.foldl_nil, children_attach _ (hs.lt_count (hext.mem hmem))
      (hs.lt_count (hext.mem hid)), ih hbefore]
    · by_cases hy : y = id
      · rw [if_pos hy, if_pos hy, if_pos hy, List.append_assoc]
      · rw [if_neg hy, if_neg hy, if_neg hy]
    · rw [hparent, if_neg hnotin]
      exact hcs.free c (by simp)

theorem pairwise_snoc {l : List NodeId} {n : NodeId} (hl : l.Pairwise (· < ·)) (hn : ∀ c ∈ l, c < n) :
    (l ++ [n]).Pairwise (· < ·) :=
  List.pairwise_append.2 ⟨hl, List.pairwise_singleton _ _, fun c hc _ hd => List.mem_singleton.1 hd ▸ hn c hc⟩

/-- **A new node has the greatest number**, wherever it goes. -/
theorem ordered_link (h : Underway mode b) (hb : b.Ordered) (hmode : mode ≠ .overlay) (hid : (fqn, id) ∈ b.placed)
    (hfree : b.forest.parent? id = none) (hlast : ∀ x < b.forest.count, x ≠ id → x < id)
    (hnew : id ∉ b.waiting.map (·.2)) :
    (b.link mode fqn id).Ordered ∧ (b.link mode fqn id).forest.children id = b.forest.children id := by
  cases hname : QualifiedName.parent? fqn with
  | none =>
    rw [link_of_parent?_eq_none hname]
    exact ⟨hb, rfl⟩
  | some name =>
    cases hfind : b.find? name with
    | some p =>
      have hp := h.sound.find?_eq_some.1 hfind
      have hne : id ≠ p := by
        rintro rfl
        have := QualifiedName.depth_of_parent? hname
        rw [h.sound.name_unique hp hid] at this
        omega
      rw [link_of_find? hname hfind, children_attach hfree (h.sound.lt_count hid) (h.sound.lt_count hp), if_neg hne]
      refine ⟨⟨fun y => ?_, hb.waiting⟩, rfl⟩
      rw [children_attach hfree (h.sound.lt_count hid) (h.sound.lt_count hp)]
      split
      · refine pairwise_snoc (hb.children y) fun c hc => ?_
        have hparent := h.sound.mem_children.1 hc
        refine hlast c (Forest.lt_count_of_parent? hparent) ?_
        rintro rfl
        rw [hfree] at hparent
        cases hparent
      · exact hb.children y
    | none =>
      rw [link_wait hname hfind hmode]
      refine ⟨⟨hb.children, ?_⟩, rfl⟩
      rw [List.map_append]
      refine pairwise_snoc hb.waiting fun c hc => ?_
      obtain ⟨w, hw, rfl⟩ := List.mem_map.1 hc
      obtain ⟨name', hmem, -⟩ := h.waiting.named w hw
      exact hlast w.2 (h.sound.lt_count hmem) (ne_of_mem_of_not_mem hc hnew)

theorem ordered_adopt (h : b.Sound) (hw : b.Waiting) (hb : b.Ordered) (hid : (fqn, id) ∈ b.placed)
    (hnone : b.forest.children id = []) :
    (b.adopt fqn id).Ordered := by
  rw [adopt_eq]
  refine ⟨fun y => ?_, hb.waiting.sublist (List.filter_sublist.map _)⟩
  change ((List.foldl _ b _).forest.children y).Pairwise _
  rw [children_attachAll h hid (hw.adoptable fqn)]
  split
  · rename_i hy
    rw [hy, hnone, List.nil_append]
    exact hb.waiting.sublist (List.filter_sublist.map _)
  · exact hb.children y

theorem ordered_addNew (h : Underway mode b) (hb : b.Ordered) (hmode : mode ≠ .overlay)
    (hnew : b.find? fqn = none) (pl : Payload) :
    (b.addNew mode fqn pl).Ordered := by
  have hplace := underway_place h hnew pl
  have hmem : (fqn, b.forest.count) ∈ (b.declared fqn pl).placed := mem_place
  have hfree : (b.declared fqn pl).forest.parent? b.forest.count = none := parent?_place_self rfl
  have hfresh : b.forest.count ∉ (b.declared fqn pl).waiting.map (·.2) := h.count_not_mem_waiting
  have hchildren (y : NodeId) : (b.declared fqn pl).forest.children y = b.forest.children y := children_place rfl
  have hplaced : (b.declared fqn pl).Ordered := ⟨fun y => hchildren y ▸ hb.children y, hb.waiting⟩
  obtain ⟨hlink, hext⟩ := underway_link hplace hmem hfree hfresh
  obtain ⟨hordered, hnone⟩ := ordered_link hplace hplaced hmode hmem hfree (fun x hx hne => by
    have hx : x < b.forest.count + 1 := hx.trans_eq (Forest.count_add _)
    omega) hfresh
  rw [addNew_eq]
  refine ordered_adopt hlink.sound hlink.waiting hordered (hext.mem hmem) ?_
  rw [hnone, hchildren, Forest.children_of_count_le (Nat.le_refl _)]

theorem ordered_addAll (hmode : mode ≠ .overlay) (h : addAll r mode {} data = .ok b) : b.Ordered := by
  refine (addAll_induction (P := fun b => Underway mode b ∧ b.Ordered)
    (fun b hb e _ fqn pl _ => ⟨underway_add hb.1 fqn pl, ?_⟩) ⟨underway_nil mode, ⟨fun p => ?_, .nil⟩⟩ h).2
  · rw [add]
    split
    · rename_i id _
      have hsame (p : NodeId) : (b.forest.modify id fun n => n.declare pl).children p = b.forest.children p :=
        Forest.field_modify Node.children fun _ => rfl
      exact ⟨fun p => hsame p ▸ hb.2.children p, hb.2.waiting⟩
    · rename_i hnew
      exact ordered_addNew hb.1 hb.2 hmode hnew pl
  · rw [Forest.children_of_count_le (Nat.zero_le _)]
    exact .nil

/-! ## The way up through declared names -/

/-- **A name climbs to another** through parents that are all declared. -/
inductive Climbs (names : List String) : String → String → Prop
  | here {k : String} : Climbs names k k
  | up {k p o : String} : QualifiedName.parent? k = some p → p ∈ names → Climbs names p o → Climbs names k o

namespace Entered

variable (h : Entered entries b)
include h

theorem count_eq : b.forest.count = entries.length := by
  rw [← h.sound.length_placed, ← List.length_map (·.1), h.names, List.length_map]

theorem placed_iff : (name, x) ∈ b.placed ↔ (entries.map (·.1))[x]? = some name := by
  have hids (i : Nat) (e : String × NodeId) (he : b.placed[i]? = some e) : e.2 = i := by
    have hi := congrArg (·[i]?) h.sound.ids
    simp only [List.getElem?_map, he] at hi
    obtain ⟨hlt, heq⟩ := List.getElem?_eq_some_iff.1 hi.symm
    exact heq.symm.trans (List.getElem_range hlt)
  rw [← h.names, List.getElem?_map, Option.map_eq_some_iff, List.mem_iff_getElem?]
  constructor
  · rintro ⟨i, hi⟩
    obtain rfl := hids i _ hi
    exact ⟨_, hi, rfl⟩
  · rintro ⟨e, he, rfl⟩
    obtain rfl := hids x e he
    exact ⟨_, he⟩

theorem exists_parent (hx : (fqn, x) ∈ b.placed) (hname : QualifiedName.parent? fqn = some name)
    (hmem : name ∈ entries.map (·.1)) :
    ∃ p, (name, p) ∈ b.placed ∧ b.forest.parent? x = some p := by
  obtain ⟨p, hp⟩ := Option.ne_none_iff_exists'.1 (h.patient.parent?_ne_none hx hname (h.names.symm ▸ hmem))
  obtain ⟨name', hname', hplaced⟩ := h.sound.edges _ hx p hp
  obtain rfl : name = name' := Option.some.inj (hname.symm.trans hname')
  exact ⟨p, hplaced, hp⟩

theorem below_iff (hx : (fqn, x) ∈ b.placed) (hy : (name, y) ∈ b.placed) :
    b.forest.Below y x ↔ Climbs (entries.map (·.1)) fqn name := by
  constructor
  · rintro ⟨q, hq⟩
    induction hq generalizing fqn with
    | here =>
      rw [h.sound.name_unique hx hy]
      exact .here
    | down _ hc ih =>
      obtain ⟨mid, hmid, hplaced⟩ := h.sound.edges _ hx _ hc
      exact .up hmid (h.names ▸ List.mem_map_of_mem hplaced) (ih hplaced)
  · intro hclimbs
    induction hclimbs generalizing x with
    | here =>
      rw [h.sound.id_unique hx hy]
      exact .refl
    | up hname hmem _ ih =>
      obtain ⟨p, hp, hparent⟩ := h.exists_parent hx hname hmem
      exact (ih hp hy).down hparent

end Entered

/-! ## The parts -/

theorem placed_of_roots {rootId : NodeId} (h : b.roots = [(root, rootId)]) :
    (root, rootId) ∈ b.placed ∧ QualifiedName.parent? root = none := by
  obtain ⟨hplaced, -, hbare⟩ := mem_roots.1 (h ▸ List.mem_cons_self)
  exact ⟨hplaced, hbare⟩

end Builder

/-- **Where a node can be after a build.** -/
inductive BuildOutcome.Part where
  | tree
  | orphan (head : String × NodeId)
  | pruned

/-- **A node is in a part**: in the tree, below an orphan, or below a node that was removed. -/
def BuildOutcome.Holds (o : BuildOutcome) (x : NodeId) : BuildOutcome.Part → Prop
  | .tree => x ∈ o.tree.preorder
  | .orphan head => head ∈ o.orphans ∧ x ∈ o.tree.subtree head.2
  | .pruned => ∃ m, x ∈ o.tree.subtree m ∧ o.tree.parent? m = none ∧ m ≠ o.tree.root ∧ m ∉ o.orphans.map (·.2) ∧
      (o.tree.node m).payload.common.delete = true

namespace Builder

open BuildOutcome (Part)

variable {o : BuildOutcome}

/-- **An outcome that parts the entries it comes from.**  The node of an entry has the number of the entry. -/
structure Parts (entries : List (String × Payload)) (root : String) (o : BuildOutcome) : Prop where
  wellFormed : o.tree.WellFormed
  count : o.tree.count = entries.length
  declared : ∀ x k pl, entries[x]? = some (k, pl) → (o.tree.node x).name = QualifiedName.last k ∧
    (o.tree.node x).content = ⟨pl, false⟩
  root_entry : (entries.map (·.1))[o.tree.root]? = some root
  /-- The orphans are the names whose parent is no name, in the order of the entries. -/
  orphans : o.orphans.map (·.1) = (entries.map (·.1)).filter (lacksParent (entries.map (·.1)))
  heads : ∀ e ∈ o.orphans, (entries.map (·.1))[e.2]? = some e.1 ∧ o.tree.parent? e.2 = none
  /-- Below an orphan are the names that climb to it. -/
  below : ∀ e ∈ o.orphans, ∀ x k, (entries.map (·.1))[x]? = some k →
    (x ∈ o.tree.subtree e.2 ↔ Climbs (entries.map (·.1)) k e.1)
  /-- The tree has the names that climb to the root, but for those that climb to a node marked for removal. -/
  kept : ∀ x k, (entries.map (·.1))[x]? = some k → (x ∈ o.tree.preorder ↔ Climbs (entries.map (·.1)) k root ∧
    ∀ e ∈ entries, e.1 ≠ root → Climbs (entries.map (·.1)) k e.1 → e.2.common.delete = false)
  /-- What is removed would be in the tree but for a mark on the way. -/
  removed : ∀ x k, (entries.map (·.1))[x]? = some k → (o.Holds x .pruned ↔ Climbs (entries.map (·.1)) k root ∧
    ∃ e ∈ entries, e.1 ≠ root ∧ Climbs (entries.map (·.1)) k e.1 ∧ e.2.common.delete = true)
  fqn : ∀ x ∈ o.tree.preorder, (entries.map (·.1))[x]? = some (o.tree.fqn x)
  once : ∀ x < entries.length, ∃! part, o.Holds x part
  children : ∀ p, (o.tree.children p).Pairwise (· < ·)

namespace Entered

variable {rootId : NodeId}

abbrev whole (b : Builder) (rootId : NodeId) : Tree := { b.forest with root := rootId }

theorem cut_whole (h : b.Sound) (rootId : NodeId) :
    Forest.Cut (whole b rootId).marked b.forest (whole b rootId).prune.1.toForest :=
  Tree.cut_prune h.linked

theorem parent?_orphan (h : b.Sound) {e : String × NodeId} (he : e ∈ b.orphans) :
    (whole b rootId).prune.1.parent? e.2 = none := by
  refine ((cut_whole h _).parent? e.2).trans ?_
  rw [(mem_orphans.1 he).2.1, ite_self]

variable (h : Entered entries b) (hroots : b.roots = [(root, rootId)])
include h hroots

theorem root_or_orphan (hx : x < b.forest.count) (htop : b.forest.parent? x = none) :
    x = rootId ∨ ∃ e ∈ b.orphans, e.2 = x := by
  obtain ⟨fqn, hfqn⟩ := h.sound.exists_placed hx
  by_cases hbare : QualifiedName.parent? fqn = none
  · have hroot : (fqn, x) ∈ b.roots := mem_roots.2 ⟨hfqn, htop, hbare⟩
    rw [hroots, List.mem_singleton] at hroot
    exact .inl (congrArg Prod.snd hroot)
  · exact .inr ⟨(fqn, x), mem_orphans.2 ⟨hfqn, htop, hbare⟩, rfl⟩

theorem orphan_ne_root {e : String × NodeId} (he : e ∈ b.orphans) : e.2 ≠ rootId := by
  intro heq
  obtain ⟨hplaced, -, hdotted⟩ := mem_orphans.1 he
  rw [h.sound.name_unique hplaced (heq ▸ (placed_of_roots hroots).1)] at hdotted
  exact hdotted (placed_of_roots hroots).2

/-- **What is left of the tree**: what climbs to the root and to no marked node. -/
theorem kept_iff (hx : (fqn, x) ∈ b.placed) :
    x ∈ (whole b rootId).prune.1.preorder ↔ Climbs (entries.map (·.1)) fqn root ∧
    ∀ e ∈ entries, e.1 ≠ root → Climbs (entries.map (·.1)) fqn e.1 → e.2.common.delete = false := by
  obtain ⟨hroot, hbare⟩ := placed_of_roots hroots
  have htop := h.sound.parent?_eq_none hroot hbare
  have hwhole : (whole b rootId).Rooted := (wellFormed_of_placed h.sound hroot hbare).1.toRooted
  have hclimbs : x ∈ (whole b rootId).preorder ↔ Climbs (entries.map (·.1)) fqn root :=
    (Tree.mem_preorder hwhole.linked).trans (h.below_iff hx hroot)
  rw [Tree.mem_preorder_prune hwhole, hclimbs]
  refine and_congr_right fun hclimbs => ⟨fun hkept e he hne hup => ?_, fun hkept c hc hne hcx => ?_⟩
  · obtain ⟨c, hc, hcontent⟩ := h.content e he
    have hcx := (h.below_iff hx hc).2 hup
    have hcne : c ≠ rootId := by
      rintro rfl
      exact hne (h.sound.name_unique hc hroot)
    obtain ⟨q, hq⟩ := (h.below_iff hx hroot).2 hclimbs
    have hrc : b.forest.Below rootId c :=
      (hq.below_or_above hcx).resolve_right fun hcr => hcne (hcr.eq_of_top htop).symm
    rw [← show (b.forest.node c).payload = e.2 from congrArg Content.payload hcontent]
    exact hkept c ((Tree.mem_preorder hwhole.linked).2 hrc) hcne hcx
  · obtain ⟨name, hname⟩ := h.sound.exists_placed (hwhole.lt_count hc)
    obtain ⟨e, he, rfl⟩ := List.mem_map.1 (h.names ▸ List.mem_map_of_mem hname)
    obtain ⟨c', hc', hcontent⟩ := h.content e he
    obtain rfl := h.sound.id_unique hname hc'
    have hne' : e.1 ≠ root := by
      intro heq
      rw [heq] at hc'
      exact hne (h.sound.id_unique hc' hroot)
    rw [show ((whole b rootId).node c).payload = e.2 from congrArg Content.payload hcontent]
    exact hkept e he hne' ((h.below_iff hx hname).1 hcx)

/-- **What is below an orphan**: what climbs to it; no removal goes so far. -/
theorem below_orphan_iff {e : String × NodeId} (he : e ∈ b.orphans)
    (hx : (fqn, x) ∈ b.placed) : x ∈ (whole b rootId).prune.1.subtree e.2 ↔ Climbs (entries.map (·.1)) fqn e.1 := by
  have hcut := cut_whole h.sound rootId
  obtain ⟨hplaced, htop, -⟩ := mem_orphans.1 he
  have hroot := h.sound.parent?_eq_none (placed_of_roots hroots).1 (placed_of_roots hroots).2
  rw [(hcut.linked h.sound.linked).mem_subtree, ← h.below_iff hx hplaced]
  refine ⟨fun ⟨q, hq⟩ => ⟨q, hcut.route h.sound.linked hq⟩,
    fun ⟨q, hq⟩ => ⟨q, (hcut.route_iff h.sound.linked).2 ⟨hq, ?_⟩⟩⟩
  intro c hc _ hec
  have hrc := (Tree.mem_preorder h.sound.linked).1 (List.mem_of_mem_filter hc)
  exact absurd (hec.top_unique htop hroot hrc) (h.orphan_ne_root hroots he)

/-- **Every name climbs to the root or to an orphan**, and not to both. -/
theorem climbs_top (hx : (fqn, x) ∈ b.placed) : Climbs (entries.map (·.1)) fqn root ↔
    ∀ e ∈ b.orphans, ¬ Climbs (entries.map (·.1)) fqn e.1 := by
  obtain ⟨hroot, hbare⟩ := placed_of_roots hroots
  have htop := h.sound.parent?_eq_none hroot hbare
  constructor
  · intro hclimbs e he hup
    obtain ⟨hplaced, hfree, -⟩ := mem_orphans.1 he
    exact h.orphan_ne_root hroots he (((h.below_iff hx hplaced).2 hup).top_unique hfree htop
      ((h.below_iff hx hroot).2 hclimbs))
  · intro hno
    obtain ⟨a, ha, hax⟩ := h.sound.linked.exists_top x
    have hlt : a < b.forest.count := hax.start_lt_count h.sound.linked (h.sound.lt_count hx)
    rcases h.root_or_orphan hroots hlt ha with rfl | ⟨e, he, rfl⟩
    · exact (h.below_iff hx hroot).1 hax
    · exact absurd ((h.below_iff hx (mem_orphans.1 he).1).1 hax) (hno e he)

theorem holds_unique (hx : x < b.forest.count) :
    ∃! part, BuildOutcome.Holds ⟨(whole b rootId).prune.1, b.orphans⟩ x part := by
  have hcut := cut_whole h.sound rootId
  have hlinked := hcut.linked h.sound.linked
  have hwhole : (whole b rootId).Rooted :=
    (wellFormed_of_placed h.sound (placed_of_roots hroots).1 (placed_of_roots hroots).2).1.toRooted
  have hroot : (whole b rootId).prune.1.parent? rootId = none := hwhole.prune.root_top
  obtain ⟨a, ha, hax⟩ := hlinked.exists_top x
  have hbelow {m : NodeId} (hm : (whole b rootId).prune.1.parent? m = none) :
      x ∈ (whole b rootId).prune.1.subtree m ↔ m = a := by
    rw [hlinked.mem_subtree]
    exact ⟨fun hmx => hmx.top_unique hm ha hax, fun heq => heq ▸ hax⟩
  -- the top above the node decides: it is the root, or the node of an orphan, or a node that is marked
  by_cases hroota : a = rootId
  · refine ⟨.tree, (hbelow hroot).2 hroota.symm, fun part hpart => ?_⟩
    cases part with
    | tree => rfl
    | orphan e =>
      exact absurd (((hbelow (parent?_orphan h.sound hpart.1)).1 hpart.2).trans hroota)
        (h.orphan_ne_root hroots hpart.1)
    | pruned =>
      obtain ⟨m, hm, htop, hne, -⟩ := hpart
      exact absurd (((hbelow htop).1 hm).trans hroota) hne
  by_cases hheada : ∃ e ∈ b.orphans, e.2 = a
  · obtain ⟨e, he, rfl⟩ := hheada
    refine ⟨.orphan e, ⟨he, (hbelow ha).2 rfl⟩, fun part hpart => ?_⟩
    cases part with
    | tree => exact absurd ((hbelow hroot).1 hpart).symm hroota
    | orphan e' =>
      have hid := (hbelow (parent?_orphan h.sound hpart.1)).1 hpart.2
      have hmem := (mem_orphans.1 he).1
      have hmem' := (mem_orphans.1 hpart.1).1
      rw [List.inj_on_of_nodup_map (h.sound.ids ▸ List.nodup_range) hmem' hmem hid]
    | pruned =>
      obtain ⟨m, hm, htop, -, hno, -⟩ := hpart
      exact absurd (List.mem_map_of_mem he) ((hbelow htop).1 hm ▸ hno)
  · have hlt : a < b.forest.count := (hax.start_lt_count hlinked (hx.trans_eq hcut.count.symm)).trans_eq hcut.count
    have hmarked : a ∈ (whole b rootId).marked := by
      by_contra hno
      rw [hcut.parent?, if_neg hno] at ha
      exact (h.root_or_orphan hroots hlt ha).elim hroota hheada
    have hdelete := (Tree.mem_marked.1 hmarked).2.2
    have hpayload := congrArg Content.payload (hcut.content a)
    refine ⟨.pruned, ⟨a, (hbelow ha).2 rfl, ha, hroota, fun hin => hheada (List.mem_map.1 hin), ?_⟩,
      fun part hpart => ?_⟩
    · exact (congrArg (fun p => p.common.delete) hpayload).trans hdelete
    · cases part with
      | tree => exact absurd ((hbelow hroot).1 hpart).symm hroota
      | orphan e => exact absurd ⟨e, hpart.1, (hbelow (parent?_orphan h.sound hpart.1)).1 hpart.2⟩ hheada
      | pruned => rfl

/-- **What is removed**: what climbs to the root, and to a marked node on the way. -/
theorem removed_iff (hx : (fqn, x) ∈ b.placed) :
    BuildOutcome.Holds ⟨(whole b rootId).prune.1, b.orphans⟩ x .pruned ↔
      Climbs (entries.map (·.1)) fqn root ∧
        ∃ e ∈ entries, e.1 ≠ root ∧ Climbs (entries.map (·.1)) fqn e.1 ∧ e.2.common.delete = true := by
  obtain ⟨part, hpart, hunique⟩ := h.holds_unique hroots (h.sound.lt_count hx)
  have hkept := h.kept_iff hroots hx
  constructor
  · intro hpruned
    have hroot : Climbs (entries.map (·.1)) fqn root := (h.climbs_top hroots hx).2 fun e he hup => by
      have horphan :=
        (hunique (.orphan e) ⟨he, (h.below_orphan_iff hroots he hx).2 hup⟩).trans (hunique .pruned hpruned).symm
      cases horphan
    refine ⟨hroot, ?_⟩
    by_contra hno
    have htree := (hunique .tree (hkept.2 ⟨hroot, fun e he hne hup => ?_⟩)).trans (hunique .pruned hpruned).symm
    · cases htree
    · rw [← Bool.not_eq_true]
      exact fun hdelete => hno ⟨e, he, hne, hup, hdelete⟩
  · rintro ⟨hroot, e, he, hne, hup, hdelete⟩
    cases part with
    | tree => exact absurd hdelete (by rw [(hkept.1 hpart).2 e he hne hup]; simp)
    | orphan head =>
      exact absurd ((h.below_orphan_iff hroots hpart.1 hx).1 hpart.2) ((h.climbs_top hroots hx).1 hroot head hpart.1)
    | pruned => exact hpart

theorem parts (hb : b.Ordered) : Parts entries root ⟨(whole b rootId).prune.1, b.orphans⟩ where
  wellFormed := (wellFormed_of_placed h.sound (placed_of_roots hroots).1 (placed_of_roots hroots).2).1.prune
  count := (cut_whole h.sound rootId).count.trans h.count_eq
  declared := by
    intro x k pl hx
    have hplaced : (k, x) ∈ b.placed := h.placed_iff.2 (by rw [List.getElem?_map, hx]; rfl)
    obtain ⟨id, hid, hcontent⟩ := h.content (k, pl) (List.mem_of_getElem? hx)
    obtain rfl := h.sound.id_unique hid hplaced
    exact ⟨((cut_whole h.sound rootId).name id).trans (h.sound.named _ hplaced),
      ((cut_whole h.sound rootId).content id).trans hcontent⟩
  root_entry := h.placed_iff.1 (placed_of_roots hroots).1
  orphans := h.orphans_eq
  heads := fun e he => ⟨h.placed_iff.1 (mem_orphans.1 he).1, parent?_orphan h.sound he⟩
  below := fun e he x k hx => h.below_orphan_iff hroots he (h.placed_iff.2 hx)
  kept := fun x k hx => h.kept_iff hroots (h.placed_iff.2 hx)
  removed := fun x k hx => h.removed_iff hroots (h.placed_iff.2 hx)
  fqn := by
    intro x hx
    have hcut := cut_whole h.sound rootId
    have hlinked := hcut.linked h.sound.linked
    obtain ⟨hroot, hbare⟩ := placed_of_roots hroots
    have htop := h.sound.parent?_eq_none hroot hbare
    obtain ⟨q, hq⟩ := (Tree.mem_preorder hlinked).1 hx
    have hqb := hcut.route h.sound.linked hq
    obtain ⟨fqn, hfqn⟩ := h.sound.exists_placed (hqb.lt_count (h.sound.lt_count hroot))
    have htop' : (whole b rootId).prune.1.parent? rootId = none := (hcut.parent? rootId).trans (by rw [htop, ite_self])
    have hsame : (whole b rootId).prune.1.fqn x = b.forest.fqn x := by
      rw [Forest.fqn_of_route h.sound.linked htop hqb, Forest.fqn_of_route hlinked htop' hq, hcut.name]
    exact h.placed_iff.1 (hsame ▸ (h.sound.fqn_of_route hroot hbare hqb hfqn).symm ▸ hfqn)
  once := fun x hx => h.holds_unique hroots (hx.trans_eq h.count_eq.symm)
  children := fun p => (hb.children p).sublist ((cut_whole h.sound rootId).sublist p)

omit hroots in
/-- **One name without a dot** is all that a strict build needs to finish. -/
theorem exists_finish (hb : b.Ordered)
    (hbare : (entries.map (·.1)).filter (fun k => !QualifiedName.isQualified k) = [root]) :
    ∃ o, b.finish .strict = .ok o ∧ Parts entries root o := by
  have hmap := h.roots_eq
  rw [hbare, List.map_eq_singleton_iff] at hmap
  obtain ⟨⟨_, rootId⟩, hroots, rfl⟩ := hmap
  exact ⟨_, finish_strict hroots, h.parts hroots hb⟩

end Entered

end Builder

/-- **A strict build parts its entries without loss**: with one name that has no dot, every entry ends in the tree,
below one orphan, or below a node that was removed, and children stand in the order of the entries. -/
theorem build_strict_parts {r : Registry} {data : Mapping} {entries : List (String × Payload)} {root : String}
    (hdistinct : data.Distinct) (hread : List.Forall₂ (ReadsAs r) data entries)
    (hbare : (entries.map (·.1)).filter (fun k => !QualifiedName.isQualified k) = [root]) :
    ∃ o, build r .strict data = .ok o ∧ Builder.Parts entries root o := by
  obtain ⟨b, hadd, hb⟩ := Builder.exists_entered (show BuildMode.strict ≠ .overlay by simp) hread
    (Builder.nodup_names_of_distinct hread hdistinct)
  obtain ⟨o, ho, hparts⟩ := hb.exists_finish (Builder.ordered_addAll (by simp) hadd) hbare
  exact ⟨o, (Builder.build_of_addAll hadd).trans ho, hparts⟩

def hoodEntries : Mapping :=
  [(.string "Car.Cabin.Door", branchEntry "door"), (.string "Lamp.Bulb.Wire", branchEntry "wire"),
    (.string "Car.Cabin", branchEntry "cabin"),
    (.string "Car.Hood.Latch", branchEntry "latch"), (.string "Car", branchEntry "car"),
    (.string "Lamp.Bulb", branchEntry "bulb"),
    (.string "Car.Hood", .mapping [(.string "type", .string "branch"), (.string "description", .string "hood"),
      (.string "delete", .bool true)])]

theorem build_strict_hood : ∃ entries o, build {} .strict hoodEntries = .ok o ∧ Builder.Parts entries "Car" o ∧
    o.tree.preorder.map o.tree.fqn = ["Car", "Car.Cabin", "Car.Cabin.Door"] ∧ o.orphans = [("Lamp.Bulb", 5)] ∧
    o.tree.subtree 5 = [5, 1] ∧ o.tree.subtree 6 = [6, 3] := by
  let hood : Payload := { common := { description := "hood", delete := true }, body := .branch [] }
  let entries : List (String × Payload) :=
    [("Car.Cabin.Door", .branch "door"), ("Lamp.Bulb.Wire", .branch "wire"), ("Car.Cabin", .branch "cabin"),
      ("Car.Hood.Latch", .branch "latch"), ("Car", .branch "car"), ("Lamp.Bulb", .branch "bulb"), ("Car.Hood", hood)]
  have hread : List.Forall₂ (ReadsAs {}) hoodEntries entries :=
    .cons ⟨rfl, rfl⟩ (.cons ⟨rfl, rfl⟩ (.cons ⟨rfl, rfl⟩ (.cons ⟨rfl, rfl⟩
      (.cons ⟨rfl, rfl⟩ (.cons ⟨rfl, rfl⟩ (.cons ⟨rfl, rfl⟩ .nil))))))
  obtain ⟨o, ho, hparts⟩ :=
    build_strict_parts (by simp [hoodEntries, Mapping.Distinct, Value.same]) hread (show _ = ["Car"] by decide)
  refine ⟨_, o, ho, hparts, ?_⟩
  cases ho
  exact ⟨rfl, rfl, rfl, rfl⟩

end SignalCatalog
