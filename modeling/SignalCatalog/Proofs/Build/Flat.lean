import Mathlib.Data.List.Sort
import SignalCatalog.Proofs.Build.Permuted
import SignalCatalog.Proofs.Build.Strict
import SignalCatalog.Proofs.Payload.Viewed
/-!
# A flattened tree built again

The flat view of a strict build has the names that survive it, in pre-order, and each after its parent.  So a build of
the flat view finds every parent, numbers its nodes in pre-order, and its tree has the children of every node in the
same order.
-/
namespace SignalCatalog

variable {r : Registry} {data : Mapping} {entries : List (String × Payload)} {t t' : Tree} {o : BuildOutcome}
  {root : String} {x y : NodeId}

/-! ## No identifiers -/

namespace Builder

variable {b b' : Builder} {fqn : String} {pl : Payload} {id : NodeId}

/-- No node of a build has an identifier. -/
def Unidentified (b : Builder) : Prop := ∀ x, (b.forest.node x).uuid = none

theorem unidentified_attach {p : NodeId} (h : b.Unidentified) : (b.attach p id).Unidentified :=
  fun x => (Forest.field_attach Node.uuid fun _ _ _ => rfl).trans (h x)

theorem unidentified_adopt (h : b.Unidentified) : (b.adopt fqn id).Unidentified := by
  have hall : ∀ (cs : List NodeId) (b : Builder), b.Unidentified →
      (cs.foldl (fun b c => b.attach id c) b).Unidentified := by
    intro cs
    induction cs with
    | nil => exact fun _ h => h
    | cons c cs ih => exact fun b h => ih _ (unidentified_attach h)
  rw [adopt_eq]
  exact hall _ b h

theorem unidentified_add (h : b.Unidentified) : (b.add .strict fqn pl).Unidentified := by
  rw [add]
  split
  · exact fun x => (Forest.field_modify (g := fun n => n.declare pl) Node.uuid fun _ => rfl).trans (h x)
  · have hplace : (b.declared fqn pl).Unidentified := fun x => by
      rw [declared, place]
      dsimp only
      rw [Forest.node_add]
      split
      · rfl
      · exact h x
    rw [addNew_eq]
    refine unidentified_adopt ?_
    rw [link]
    split
    · exact hplace
    · split
      · exact unidentified_attach hplace
      · rename_i heq
        cases heq
      · exact hplace

theorem unidentified_addAll (h : addAll r .strict {} data = .ok b) : b.Unidentified :=
  addAll_induction (P := Unidentified) (fun _ hb _ _ _ _ _ => unidentified_add hb)
    (fun x => by rw [Forest.node_of_count_le (Nat.zero_le x)]; rfl) h

theorem uuid_of_finish (h : b.Unidentified) (ho : b.finish .strict = .ok o) (x : NodeId) :
    (o.tree.node x).uuid = none := by
  have hdetach : ∀ (cs : List NodeId) (f : Forest), (f.node x).uuid = none →
      ((cs.foldl Forest.detach f).node x).uuid = none := by
    intro cs
    induction cs with
    | nil => exact fun _ hf => hf
    | cons c cs ih => exact fun f hf => ih _ ((Forest.field_detach Node.uuid fun _ _ _ => rfl).trans hf)
  rw [finish] at ho
  split at ho
  · cases ho
  · cases ho
    exact hdetach _ _ (h x)
  · cases ho

/-! ## What survives a strict build -/

/-- **A name survives** when no name that it climbs to is marked for removal, but for the root's. -/
def Survives (entries : List (String × Payload)) (name : String) : Prop :=
  ∀ e ∈ entries, QualifiedName.isQualified e.1 = true → Climbs (entries.map (·.1)) name e.1 → e.2.common.delete = false

theorem exists_parts_of_build (hdistinct : data.Distinct) (hkeys : ∀ e ∈ data, ∃ name, e.1 = .string name)
    (h : build r .strict data = .ok o) :
    ∃ entries root, List.Forall₂ (ReadsAs r) data entries ∧ (entries.map (·.1)).Nodup ∧
      (entries.map (·.1)).filter (fun k => !QualifiedName.isQualified k) = [root] ∧ Parts entries root o ∧
      ∀ x, (o.tree.node x).uuid = none := by
  obtain ⟨b, hadd, hfin⟩ := exists_addAll_of_build h
  obtain ⟨entries, hread⟩ := exists_readsAs hkeys hadd
  have hnames := nodup_names_of_distinct hread hdistinct
  obtain ⟨b', hadd', hb⟩ := exists_entered (show BuildMode.strict ≠ .overlay by simp) hread hnames
  obtain rfl : b = b' := Except.ok.inj (hadd.symm.trans hadd')
  obtain ⟨e, he⟩ := exists_root_of_finish hfin
  have hroots := hb.roots_eq
  rw [he] at hroots
  obtain ⟨o', ho', hparts⟩ := hb.exists_finish (ordered_addAll (by simp) hadd) hroots.symm
  obtain rfl : o' = o := Except.ok.inj (ho'.symm.trans hfin)
  exact ⟨entries, e.1, hread, hnames, hroots.symm, hparts, uuid_of_finish (unidentified_addAll hadd) hfin⟩

namespace Parts

theorem getElem?_of_mem (h : Parts entries root o) (hx : x ∈ o.tree.preorder) :
    entries[x]? = some (o.tree.fqn x, (o.tree.node x).payload) := by
  have hfqn := h.fqn x hx
  rw [List.getElem?_map, Option.map_eq_some_iff] at hfqn
  obtain ⟨⟨k, pl⟩, hentry, rfl⟩ := hfqn
  have hpayload : (o.tree.node x).payload = pl := congrArg Content.payload (h.declared x _ pl hentry).2
  rw [hentry, hpayload]

variable (h : Parts entries root ⟨t, []⟩)
include h

theorem climbs_root {d : String × Payload} (hx : entries[x]? = some d) : Climbs (entries.map (·.1)) d.1 root := by
  have hname : (entries.map (·.1))[x]? = some d.1 := by rw [List.getElem?_map, hx]; rfl
  obtain ⟨part, hpart, -⟩ := h.once x (List.getElem?_eq_some_iff.1 hx).1
  cases part with
  | tree => exact ((h.kept x _ hname).1 hpart).1
  | orphan head => exact absurd hpart.1 List.not_mem_nil
  | pruned => exact ((h.removed x _ hname).1 hpart).1

/-- **The tree has what survives**, where there are no orphans. -/
theorem mem_preorder_iff (hbare : (entries.map (·.1)).filter (fun k => !QualifiedName.isQualified k) = [root])
    {d : String × Payload} (hx : entries[x]? = some d) : x ∈ t.preorder ↔ Survives entries d.1 := by
  have hname : (entries.map (·.1))[x]? = some d.1 := by rw [List.getElem?_map, hx]; rfl
  have hroot (e : String × Payload) (he : e ∈ entries) : e.1 ≠ root ↔ QualifiedName.isQualified e.1 = true := by
    have hmem : e.1 ∈ (entries.map (·.1)).filter (fun k => !QualifiedName.isQualified k) ↔ e.1 = root := by
      rw [hbare, List.mem_singleton]
    rw [List.mem_filter, and_iff_right (List.mem_map_of_mem he), Bool.not_eq_true'] at hmem
    rw [ne_eq, ← hmem, Bool.not_eq_false]
  refine (h.kept x d.1 hname).trans ⟨fun hkept e he hq => hkept.2 e he ((hroot e he).2 hq),
    fun hs => ⟨h.climbs_root hx, fun e he hne => ?_⟩⟩
  exact hs e he ((hroot e he).1 hne)

end Parts
end Builder

/-! ## The flat view -/

/-- **An entry as a flat view shows it.** -/
def shownEntry (d : String × Payload) : Value × Value := (.string d.1, .mapping (d.2.view true))

namespace Tree

/-- **The flat view shows the nodes in pre-order**, where they have no identifiers. -/
theorem flat_eq (ha : t.Addressable) (huuid : ∀ x, (t.node x).uuid = none) :
    t.flat true = t.preorder.map fun x => shownEntry (t.fqn x, (t.node x).payload) := by
  rw [ha.exported]
  refine List.map_congr_left fun x _ => ?_
  rw [flatEntry]
  simp only [huuid x]
  rfl

theorem keyed_flat (ha : t.Addressable) (huuid : ∀ x, (t.node x).uuid = none) : (t.flat true).Keyed :=
  flat_eq ha huuid ▸ keyed_of_names ha.once _

/-! ## Numbers in pre-order -/

/-- **A tree that numbers another in pre-order**: all its nodes are the other's, by the same names, and its children
stand in the order of their numbers. -/
structure Numbers (t t' : Tree) : Prop where
  wellFormed : t.WellFormed
  found : t.SelfFound
  wellFormed' : t'.WellFormed
  found' : t'.SelfFound
  count : t'.count = t.preorder.length
  attached : ∀ i < t'.count, i ∈ t'.preorder
  ordered : ∀ p, (t'.children p).Pairwise (· < ·)
  fqn : ∀ x ∈ t.preorder, t'.fqn (t.preorder.idxOf x) = t.fqn x

namespace Numbers

variable (h : Numbers t t')
include h

theorem exists_idxOf {i : Nat} (hi : i < t'.count) : ∃ x ∈ t.preorder, t.preorder.idxOf x = i :=
  ⟨_, List.getElem_mem (h.count ▸ hi), h.wellFormed.nodup_preorder.idxOf_getElem i _⟩

theorem map_idxOf : t.preorder.map t.preorder.idxOf = List.range t.preorder.length :=
  List.ext_getElem (by simp) fun i _ _ => by simp [h.wellFormed.nodup_preorder.idxOf_getElem]

/-- Parents are told by names, and names are the same. -/
theorem parent?_iff (hx : x ∈ t.preorder) (hy : y ∈ t.preorder) :
    t'.parent? (t.preorder.idxOf y) = some (t.preorder.idxOf x) ↔ t.parent? y = some x := by
  have hmem {x : NodeId} (hx : x ∈ t.preorder) : t.preorder.idxOf x ∈ t'.preorder :=
    h.attached _ (h.count ▸ List.idxOf_lt_length_of_mem hx)
  rw [← h.found'.parent?_iff h.wellFormed'.toRooted (hmem hx) (hmem hy), h.fqn x hx, h.fqn y hy,
    h.found.parent?_iff h.wellFormed.toRooted hx hy]

theorem children (hx : t.Below t.root x) : t'.children (t.preorder.idxOf x) = (t.children x).map t.preorder.idxOf := by
  have hlinked := h.wellFormed.linked
  have hsorted : ((t.children x).map t.preorder.idxOf).Pairwise (· < ·) := by
    have hsublist : ((t.children x).map t.preorder.idxOf).Sublist (t.preorder.map t.preorder.idxOf) :=
      (hlinked.children_sublist_subtree hx).map _
    rw [h.map_idxOf] at hsublist
    exact List.pairwise_lt_range.sublist hsublist
  refine (h.ordered _).eq_of_mem_iff hsorted fun i => ?_
  rw [h.wellFormed'.linked.mem_children, List.mem_map]
  have hxp := (mem_preorder hlinked).2 hx
  constructor
  · intro hi
    obtain ⟨y, hy, rfl⟩ := h.exists_idxOf (Forest.lt_count_of_parent? hi)
    exact ⟨y, hlinked.mem_children.2 ((h.parent?_iff hxp hy).1 hi), rfl⟩
  · rintro ⟨y, hy, rfl⟩
    have hyx := hlinked.mem_children.1 hy
    exact (h.parent?_iff hxp ((mem_preorder hlinked).2 (hx.down hyx))).2 hyx

theorem root_eq : t'.root = t.preorder.idxOf t.root := by
  obtain ⟨y, hy, hroot⟩ := h.exists_idxOf h.wellFormed'.root_lt_count
  have hbare := h.found'.parent?_fqn_root h.wellFormed'.toRooted
  rw [← hroot, h.fqn y hy] at hbare
  rw [← hroot, h.found.eq_root_of_parent? h.wellFormed.toRooted hy hbare]

/-- **Its pre-order counts up.** -/
theorem preorder_eq : t'.preorder = List.range t.preorder.length := by
  have hle : t'.count ≤ t.count := by
    have hsubset : t.preorder ⊆ List.range t.count := fun x hx => List.mem_range.2 (h.wellFormed.lt_count hx)
    rw [h.count]
    simpa using h.wellFormed.nodup_preorder.length_le_of_subset hsubset
  rw [preorder, ← h.wellFormed'.linked.subtreeWithin_of_count_le hle, h.root_eq,
    Forest.subtreeWithin_map h.wellFormed.linked fun x => h.children]
  exact h.map_idxOf

end Numbers
end Tree

namespace Builder.Parts

/-- **The flat view has what survives**, where there are no orphans. -/
theorem mem_flat (h : Parts entries root ⟨t, []⟩) (ha : t.Addressable) (huuid : ∀ x, (t.node x).uuid = none)
    (hbare : (entries.map (·.1)).filter (fun k => !QualifiedName.isQualified k) = [root]) (e : Value × Value) :
    e ∈ t.flat true ↔ ∃ d ∈ entries, Survives entries d.1 ∧ e = shownEntry d := by
  rw [t.flat_eq ha huuid, List.mem_map]
  constructor
  · rintro ⟨x, hx, rfl⟩
    have hentry := h.getElem?_of_mem hx
    exact ⟨_, List.mem_of_getElem? hentry, (h.mem_preorder_iff hbare hentry).1 hx, rfl⟩
  · rintro ⟨d, hd, hs, rfl⟩
    obtain ⟨x, hx⟩ := List.mem_iff_getElem?.1 hd
    have hmem := (h.mem_preorder_iff hbare hx).2 hs
    exact ⟨x, hmem, congrArg shownEntry (Option.some.inj ((h.getElem?_of_mem hmem).symm.trans hx))⟩

theorem flat_of_preorder (h : Parts entries root o) (ha : o.tree.Addressable) (huuid : ∀ x, (o.tree.node x).uuid = none)
    (hpre : o.tree.preorder = List.range entries.length) : o.tree.flat true = entries.map shownEntry := by
  rw [o.tree.flat_eq ha huuid]
  refine List.ext_getElem (by simp [hpre]) fun i hi hi' => ?_
  have hi : i < entries.length := by simpa using hi'
  have hentry := h.getElem?_of_mem (x := i) (hpre ▸ List.mem_range.2 hi)
  rw [List.getElem?_eq_getElem hi, Option.some.injEq] at hentry
  simp only [List.getElem_map, hpre, List.getElem_range, hentry]

end Builder.Parts

/-! ## Built again -/

namespace Tree

open Builder

def viewedEntries (t : Tree) : List (String × Payload) := t.preorder.map fun x => (t.fqn x, (t.node x).payload.viewed)

theorem names_viewedEntries (t : Tree) : t.viewedEntries.map (·.1) = t.preorder.map t.fqn := List.map_map

theorem shown_viewedEntries (t : Tree) : t.viewedEntries.map shownEntry = t.preorder.map fun x =>
    shownEntry (t.fqn x, (t.node x).payload) := by
  rw [viewedEntries, List.map_map]
  refine List.map_congr_left fun x _ => ?_
  rw [Function.comp_apply, shownEntry, shownEntry, Payload.view_viewed]

section

variable (ht : t.WellFormed) (ha : t.Addressable)
include ht ha

theorem filter_names : (t.preorder.map t.fqn).filter (fun k => !QualifiedName.isQualified k) = [t.fqn t.root] := by
  have hroot : t.root ∈ t.preorder := (mem_preorder ht.linked).2 .refl
  refine List.perm_singleton.1 ((List.perm_ext_iff_of_nodup (ha.once.filter _) (List.nodup_singleton _)).2 fun k => ?_)
  rw [List.mem_filter, List.mem_singleton, Bool.not_eq_true', ← QualifiedName.parent?_eq_none_iff]
  constructor
  · rintro ⟨hk, hbare⟩
    obtain ⟨x, hx, rfl⟩ := List.mem_map.1 hk
    rw [ha.found.eq_root_of_parent? ht.toRooted hx hbare]
  · rintro rfl
    exact ⟨List.mem_map_of_mem hroot, ha.found.parent?_fqn_root ht.toRooted⟩

theorem lacksParent_names {k : String} (hk : k ∈ t.preorder.map t.fqn) :
    lacksParent (t.preorder.map t.fqn) k = false := by
  obtain ⟨x, hx, rfl⟩ := List.mem_map.1 hk
  rw [← Bool.not_eq_true, lacksParent_iff]
  rintro ⟨p, hp, hno⟩
  obtain ⟨q, hq⟩ := (mem_preorder ht.linked).1 hx
  cases hq with
  | here =>
    rw [ha.found.parent?_fqn_root ht.toRooted] at hp
    cases hp
  | down hy hc =>
    rw [ha.found.parent?_fqn ht.toRooted (hy.down hc) hy] at hp
    cases hp
    exact hno (List.mem_map_of_mem ((mem_preorder ht.linked).2 ⟨_, hy⟩))

/-- **A flat view with steady values builds the tree that it shows.** -/
theorem exists_build_flat (huuid : ∀ x, (t.node x).uuid = none)
    (hchecked : ∀ x ∈ t.preorder, (t.node x).payload.Checked r)
    (hsteady : ∀ x ∈ t.preorder, (t.node x).payload.Steady) :
    ∃ t', build r .strict (t.flat true) = .ok ⟨t', []⟩ ∧ t'.flat true = t.flat true := by
  have hflat := t.flat_eq ha huuid
  have hread : List.Forall₂ (ReadsAs r) (t.flat true) t.viewedEntries := by
    rw [hflat, viewedEntries, List.forall₂_map_left_iff, List.forall₂_map_right_iff]
    exact List.forall₂_same.2 fun x hx => ⟨rfl, Payload.read_view (hchecked x hx) (hsteady x hx)⟩
  have hbare := t.names_viewedEntries ▸ filter_names ht ha
  obtain ⟨b, hadd, hb⟩ :=
    exists_entered (show BuildMode.strict ≠ .overlay by simp) hread (t.names_viewedEntries ▸ ha.once)
  obtain ⟨⟨t', orphans⟩, hfin, hparts⟩ := hb.exists_finish (ordered_addAll (by simp) hadd) hbare
  have hbuild : build r .strict (t.flat true) = .ok ⟨t', orphans⟩ := (build_of_addAll hadd).trans hfin
  have huuid' := uuid_of_finish (unidentified_addAll hadd) hfin
  obtain rfl : orphans = [] := by
    refine List.map_eq_nil_iff.1 (hparts.orphans.trans ?_)
    rw [t.names_viewedEntries]
    exact List.filter_eq_nil_iff.2 fun k hk => by simp [lacksParent_names ht ha hk]
  have hcount : t'.count = t.preorder.length := by rw [hparts.count, viewedEntries, List.length_map]
  have hall : ∀ i < t'.count, i ∈ t'.preorder := by
    intro i hi
    refine (hparts.mem_preorder_iff hbare (List.getElem?_eq_getElem (hparts.count ▸ hi))).2 fun e he _ _ => ?_
    -- what was read from a view has no mark
    obtain ⟨x, -, rfl⟩ := List.mem_map.1 he
    rw [Payload.common_viewed]
    rfl
  have hnumbers : Numbers t t' := by
    refine ⟨ht, ha.found, hparts.wellFormed, selfFound_of_build hbuild, hcount, hall, hparts.children, fun x hx => ?_⟩
    have hname := hparts.fqn _ (hall (t.preorder.idxOf x) (hcount ▸ List.idxOf_lt_length_of_mem hx))
    rw [t.names_viewedEntries, List.getElem?_map, List.getElem?_idxOf hx] at hname
    exact (Option.some.inj hname).symm
  have hpre : t'.preorder = List.range t.viewedEntries.length := by
    rw [hnumbers.preorder_eq, viewedEntries, List.length_map]
  have ha' := hnumbers.found'.addressable hparts.wellFormed
  exact ⟨t', hbuild, by rw [hparts.flat_of_preorder ha' huuid' hpre, shown_viewedEntries, hflat]⟩

end
end Tree

theorem exists_of_forall₂ {α β : Type} {R : α → β → Prop} {as : List α} {bs : List β} {b : β}
    (h : List.Forall₂ R as bs) (hb : b ∈ bs) :
    ∃ a ∈ as, R a b := by
  induction h with
  | nil => cases hb
  | cons hab _ ih =>
    rcases List.mem_cons.1 hb with rfl | hb
    · exact ⟨_, List.mem_cons_self, hab⟩
    · obtain ⟨a, ha, hR⟩ := ih hb
      exact ⟨a, List.mem_cons_of_mem _ ha, hR⟩

/-- **A strict build without orphans, flattened and built again.** The flat view has the names that survive, each with
its view, in pre-order; a build of it succeeds without orphans and has the same flat view just when no tag within the
allowed values and defaults of the tree begins with a mark. -/
theorem build_flat_again {r : Registry} {data : Mapping} {t : Tree} (hdata : (Value.mapping data).repeatsKey = false)
    (hkeys : ∀ e ∈ data, ∃ name, e.1 = .string name) (h : build r .strict data = .ok ⟨t, []⟩) :
    ∃ entries, List.Forall₂ (ReadsAs r) data entries ∧
      t.flat true = t.preorder.map (fun x => shownEntry (t.fqn x, (t.node x).payload)) ∧ (t.preorder.map t.fqn).Nodup ∧
      (∀ e, e ∈ t.flat true ↔ ∃ d ∈ entries, Builder.Survives entries d.1 ∧ e = shownEntry d) ∧
      ((∃ t', build r .strict (t.flat true) = .ok ⟨t', []⟩ ∧ t'.flat true = t.flat true) ↔
        ∀ x ∈ t.preorder, (t.node x).payload.Steady) := by
  rw [Value.repeatsKey, Value.repeatsKeyEntries_eq_false] at hdata
  obtain ⟨entries, root, hread, hnames, hbare, hparts, huuid⟩ := Builder.exists_parts_of_build hdata.1 hkeys h
  have ha := (selfFound_of_build h).addressable hparts.wellFormed
  have hmem := hparts.mem_flat ha huuid hbare
  have hchecked : ∀ x ∈ t.preorder, (t.node x).payload.Checked r := fun x hx => by
    obtain ⟨e, he, -, hpayload⟩ := exists_of_forall₂ hread (List.mem_of_getElem? (hparts.getElem?_of_mem hx))
    exact Payload.checked_of_read_value (hdata.2 e he).2 hpayload
  refine ⟨entries, hread, t.flat_eq ha huuid, ha.once, hmem, ?_,
    Tree.exists_build_flat hparts.wellFormed ha huuid hchecked⟩
  rintro ⟨t', h', hsame⟩ x hx
  have hkeyed := t.keyed_flat ha huuid
  have hflatkeys : ∀ e ∈ t.flat true, ∃ name, e.1 = .string name := fun e he => by
    obtain ⟨d, -, -, rfl⟩ := (hmem e).1 he
    exact ⟨d.1, rfl⟩
  obtain ⟨entries', root', hread', hnames', hbare', hparts', huuid'⟩ :=
    Builder.exists_parts_of_build hkeyed.distinct hflatkeys h'
  have hshown : shownEntry (t.fqn x, (t.node x).payload) ∈ t.flat true := by
    rw [t.flat_eq ha huuid]
    exact List.mem_map_of_mem hx
  -- the entry that is read from the view has the view that it is read from
  obtain ⟨d, hd, hxd⟩ := exists_of_forall₂ hread'.flip hshown
  have ha' := (selfFound_of_build h').addressable hparts'.wellFormed
  obtain ⟨d', hd', -, heq⟩ := (hparts'.mem_flat ha' huuid' hbare' _).1 (hsame ▸ hshown)
  obtain ⟨hname, hview⟩ := Prod.mk.inj heq
  obtain rfl : d = d' := List.inj_on_of_nodup_map hnames' hd hd' (Value.string.inj (hxd.1.symm.trans hname))
  exact Payload.steady_of_read_view (hchecked x hx).toProper hxd.2 (Value.mapping.inj hview).symm

/-- A colour before its door, whose two levels are declared as two lists, and a hood that is to be removed. -/
def doorEntries : Mapping :=
  [(.string "Car.Door.Color", .mapping [(.string "type", .string "attribute"), (.string "description", .string "color"),
      (.string "datatype", .string "string"), (.string "default", .string "red"),
      (.string "instantiate", .bool false)]),
    (.string "Car.Hood", .mapping [(.string "type", .string "branch"), (.string "description", .string "hood"),
      (.string "delete", .bool true)]),
    (.string "Car", branchEntry "car"),
    (.string "Car.Door", .mapping [(.string "type", .string "branch"), (.string "description", .string "door"),
      (.string "note", .string "new"), (.string "instances", .list [.list [.string "Left"], .list [.string "Right"]])])]

theorem build_flat_door : ∃ t, build {} .strict doorEntries = .ok ⟨t, []⟩ ∧
    t.flat true = [(.string "Car", branchEntry "car"),
      (.string "Car.Door", .mapping [(.string "type", .string "branch"), (.string "description", .string "door"),
        (.string "instances", .list [.string "Left", .string "Right"]), (.string "note", .string "new")]),
      (.string "Car.Door.Color", .mapping [(.string "type", .string "attribute"),
        (.string "description", .string "color"),
        (.string "datatype", .string "string"), (.string "default", .string "red")])] ∧
    ∃ t', build {} .strict (t.flat true) = .ok ⟨t', []⟩ ∧ t'.flat true = t.flat true := by
  have hbuild : ∃ t, build {} .strict doorEntries = .ok ⟨t, []⟩ := ⟨_, rfl⟩
  obtain ⟨t, h⟩ := hbuild
  obtain ⟨-, -, -, -, -, hiff⟩ := build_flat_again rfl (by simp [doorEntries]) h
  have hsteady : ∀ x ∈ [2, 3, 0], (t.node x).payload.Steady := by
    cases h
    simp only [Payload.steady_iff, List.forall_mem_cons]
    exact ⟨⟨rfl, rfl⟩, ⟨rfl, rfl⟩, ⟨rfl, rfl⟩, by simp⟩
  have hpre : t.preorder = [2, 3, 0] := by
    cases h
    rfl
  refine ⟨t, h, ?_, hiff.2 (hpre ▸ hsteady)⟩
  cases h
  rfl

/-- A seat whose default has a tag within. -/
def warmEntries (tag : String) : Mapping :=
  [(.string "Cabin", branchEntry "cabin"),
    (.string "Cabin.Seat", .mapping [(.string "type", .string "attribute"), (.string "description", .string "seat"),
      (.string "datatype", .string "Types.Seat"), (.string "default",
        .mapping [(.string "heat", .tagged ⟨tag⟩ (.string "on"))])])]

/-- **A tag loses a mark with every build**, so the second flat view is not the first. -/
theorem build_flat_unmarked :
    ∃ t t', build { datatypes := { dynamic := ["Types.Seat"] } } .strict (warmEntries "!!low") = .ok ⟨t, []⟩ ∧
    t.flat true = warmEntries "!low" ∧
    build { datatypes := { dynamic := ["Types.Seat"] } } .strict (t.flat true) = .ok ⟨t', []⟩ ∧
    t'.flat true = warmEntries "low" ∧ t'.flat true ≠ t.flat true := by
  refine ⟨_, _, rfl, rfl, rfl, rfl, fun heq => ?_⟩
  have htag : warmEntries "low" = warmEntries "!low" := heq
  simp [warmEntries] at htag

end SignalCatalog
