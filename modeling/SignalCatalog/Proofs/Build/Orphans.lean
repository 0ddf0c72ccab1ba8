import SignalCatalog.Proofs.Build.Sound
/-!
# Orphans find their way up

Orphans are connected in the order of their depth.  When one is connected, every node above it has been connected
before, so its nearest ancestor is in the tree just when the name begins with that of the root.
-/
namespace SignalCatalog
namespace Builder

variable {b b' : Builder} {fqn name anchor r : String} {id a root : Nat} {missing : List String}
  {L : List (String × NodeId)}

/-! ## The way up -/

/-- **The names between a name and an ancestor**, nearest first. -/
def Up (fqn : String) : List String → String → Prop
  | [], anchor => QualifiedName.parent? fqn = some anchor
  | name :: rest, anchor => QualifiedName.parent? fqn = some name ∧ Up name rest anchor

theorem Up.mem_ancestors (h : Up fqn missing anchor) :
    anchor ∈ QualifiedName.ancestors fqn ∧ ∀ m ∈ missing, m ∈ QualifiedName.ancestors fqn := by
  induction missing generalizing fqn with
  | nil =>
    rw [QualifiedName.ancestors_of_parent? h]
    exact ⟨List.mem_cons_self, by simp⟩
  | cons name rest ih =>
    obtain ⟨hname, hrest⟩ := h
    obtain ⟨hanchor, hmissing⟩ := ih hrest
    rw [QualifiedName.ancestors_of_parent? hname]
    refine ⟨List.mem_cons_of_mem _ hanchor, fun m hm => ?_⟩
    rcases List.mem_cons.1 hm with rfl | hm
    · exact List.mem_cons_self
    · exact List.mem_cons_of_mem _ (hmissing m hm)

/-- **The nearest ancestor that is there**, and the names that are not. -/
theorem anchor?_eq_some (h : b.Sound) (ha : b.anchor? (QualifiedName.ancestors fqn) = some (a, missing)) :
    ∃ anchor, (anchor, a) ∈ b.placed ∧ Up fqn missing anchor ∧ ∀ m ∈ missing, b.find? m = none := by
  induction fqn using QualifiedName.parent_induction generalizing missing with
  | _ fqn ih =>
    cases hname : QualifiedName.parent? fqn with
    | none =>
      rw [QualifiedName.ancestors_of_parent?_eq_none hname] at ha
      cases ha
    | some name =>
      rw [QualifiedName.ancestors_of_parent? hname, anchor?] at ha
      split at ha
      · rename_i p hp
        cases ha
        exact ⟨name, h.find?_eq_some.1 hp, hname, by simp⟩
      · rename_i hnew
        obtain ⟨⟨a', rest⟩, hrest, heq⟩ := Option.map_eq_some_iff.1 ha
        cases heq
        obtain ⟨anchor, hmem, hup, hall⟩ := ih name hname hrest
        exact ⟨anchor, hmem, ⟨hname, hup⟩, List.forall_mem_cons.2 ⟨hnew, hall⟩⟩

theorem anchor?_eq_none (ha : b.anchor? (QualifiedName.ancestors fqn) = none) :
    ∀ m ∈ QualifiedName.ancestors fqn, b.find? m = none := by
  induction fqn using QualifiedName.parent_induction with
  | _ fqn ih =>
    cases hname : QualifiedName.parent? fqn with
    | none =>
      rw [QualifiedName.ancestors_of_parent?_eq_none hname]
      simp
    | some name =>
      rw [QualifiedName.ancestors_of_parent? hname] at ha ⊢
      rw [anchor?] at ha
      split at ha
      · cases ha
      · rename_i hnew
        exact List.forall_mem_cons.2 ⟨hnew, ih name hname (by simpa using ha)⟩

/-! ## The way down -/

/-- **Placeholders made above a name**: they are attached, and nothing else is different. -/
structure Filled (fqn : String) (b b' : Builder) : Prop where
  sound : b'.Sound
  ext : Extends b b'
  old : ∀ x, x < b.forest.count → b'.forest.parent? x = b.forest.parent? x
  fresh : ∀ e ∈ b'.placed, e ∈ b.placed ∨
    (b'.forest.node e.2).content = ⟨.placeholder, true⟩ ∧ e.1 ∈ QualifiedName.ancestors fqn ∧
    b'.forest.parent? e.2 ≠ none

/-- The placeholders made so far have names above the one that they are made for. -/
theorem Filled.find?_self (hfill : Filled name b b') (h : b.Sound) (hnew : b.find? name = none) :
    b'.find? name = none := by
  cases hfind : b'.find? name with
  | none => rfl
  | some i =>
    rcases hfill.fresh _ (hfill.sound.find?_eq_some.1 hfind) with hold | ⟨-, hself, -⟩
    · have := h.find?_eq_some.2 hold
      rw [hnew] at this
      cases this
    · exact absurd rfl (QualifiedName.mem_ancestors_iff.1 hself).2

theorem extendDown_append (b : Builder) (p : NodeId) (l : List String) (name : String) : b.extendDown p (l ++ [name]) =
    ((((b.extendDown p l).1.placeholder name).1.attach (b.extendDown p l).2 (b.extendDown p l).1.forest.count),
      (b.extendDown p l).1.forest.count) := by
  induction l generalizing b p with
  | nil => rfl
  | cons first l ih => exact ih _ _

/-- **Missing names are filled from the outermost inwards**, and the innermost node is that of the parent's name. -/
theorem filled_extendDown (h : b.Sound) (ha : (anchor, a) ∈ b.placed) (hup : Up fqn missing anchor)
    (hnew : ∀ m ∈ missing, b.find? m = none) :
    Filled fqn b (b.extendDown a missing.reverse).1 ∧
      ∃ name, QualifiedName.parent? fqn = some name ∧
      (name, (b.extendDown a missing.reverse).2) ∈ (b.extendDown a missing.reverse).1.placed := by
  induction missing generalizing fqn with
  | nil => exact ⟨⟨h, .refl, fun _ _ => rfl, fun _ he => .inl he⟩, anchor, hup, ha⟩
  | cons m missing ih =>
    obtain ⟨hm, hup⟩ := hup
    obtain ⟨hfill, name, hname, hp⟩ := ih hup fun m' hm' => hnew m' (List.mem_cons_of_mem _ hm')
    rw [List.reverse_cons, extendDown_append]
    generalize b.extendDown a missing.reverse = r at hfill hp
    obtain ⟨b₁, p⟩ := r
    dsimp only at hfill hp ⊢
    have hnone : b₁.find? m = none := hfill.find?_self h (hnew m List.mem_cons_self)
    have hplace := sound_placeholder hfill.sound hnone
    have hext : Extends b₁ (b₁.place m (.placeholder (QualifiedName.last m))).1 := extends_place hfill.sound rfl
    have hmem : (m, b₁.forest.count) ∈ (b₁.placeholder m).1.placed := mem_place
    have hfree : (b₁.placeholder m).1.forest.parent? b₁.forest.count = none := parent?_place_self rfl
    have hlt := hplace.lt_count hmem
    have hltp := hplace.lt_count (hext.mem hp)
    have hattach := extends_attach hfree hlt hltp
    have hparent : ∀ x : Nat, ((b₁.placeholder m).1.attach p b₁.forest.count).forest.parent? x =
        if x = b₁.forest.count then some p else b₁.forest.parent? x := fun x =>
      (parent?_attach hfree hlt hltp).trans
        (by rw [show (b₁.placeholder m).1.forest.parent? x = _ from parent?_place rfl])
    refine ⟨⟨hplace.attach hmem (hext.mem hp) hname hfree, (hfill.ext.trans hext).trans hattach,
      fun x hx => ?_, fun e he => ?_⟩, m, hm, hmem⟩
    · have hle := hfill.ext.count_le h hfill.sound
      rw [hparent, if_neg (by omega), hfill.old x hx]
    · have hanc := QualifiedName.ancestors_of_parent? hm
      rcases List.mem_append.1 he with he | he
      · refine (hfill.fresh e he).imp_right fun ⟨hcontent, hmem', hpar⟩ => ⟨?_, hanc ▸ List.mem_cons_of_mem _ hmem', ?_⟩
        · rw [(hext.trans hattach).content e he, hcontent]
        · rw [hparent, if_neg (Nat.ne_of_lt (hfill.sound.lt_count (show (e.1, e.2) ∈ b₁.placed from he)))]
          exact hpar
      · rw [List.mem_singleton.1 he]
        refine .inr ⟨(content_attach hfree hlt hltp).trans content_place, hanc ▸ List.mem_cons_self, ?_⟩
        intro hnone
        have hsome := hparent b₁.forest.count
        rw [if_pos rfl] at hsome
        cases hsome.symm.trans hnone

/-! ## Orphan by orphan -/

/-- **Orphans being connected**: those still to come are as deep as any before, and whatever begins with the name of the
root is attached or still to come. -/
structure Connecting (r : String) (root : Nat) (L : List (String × NodeId)) (b : Builder) : Prop where
  sound : b.Sound
  root_placed : (r, root) ∈ b.placed
  root_bare : QualifiedName.parent? r = none
  sorted : L.Pairwise fun o o' => QualifiedName.depth o.1 ≤ QualifiedName.depth o'.1
  ids_nodup : (L.map (·.2)).Nodup
  listed : ∀ o ∈ L, o ∈ b.placed ∧ b.forest.parent? o.2 = none ∧ QualifiedName.parent? o.1 ≠ none
  attached : ∀ e ∈ b.placed, QualifiedName.parent? e.1 ≠ none → QualifiedName.first e.1 = r →
    b.forest.parent? e.2 ≠ none ∨ e ∈ L

theorem Sound.first_of_below (h : b.Sound) {p x : Nat} (hp : (name, p) ∈ b.placed) (hbelow : b.forest.Below p x)
    (hx : (fqn, x) ∈ b.placed) :
    QualifiedName.first fqn = QualifiedName.first name := by
  obtain ⟨q, hq⟩ := hbelow
  induction hq generalizing fqn with
  | here => rw [h.name_unique hx hp]
  | down _ hc ih =>
    obtain ⟨mid, hmid, hmem⟩ := h.edges _ hx _ hc
    rw [QualifiedName.first_of_parent? hmid, ih hmem]

namespace Connecting

variable {o : String × NodeId}

/-- **A node above the orphans still to come is in the tree**, if its name begins with that of the root. -/
theorem below_root (h : Connecting r root L b) (he : (anchor, a) ∈ b.placed) (hfirst : QualifiedName.first anchor = r)
    (hdepth : ∀ o ∈ L, QualifiedName.depth anchor < QualifiedName.depth o.1) : b.forest.Below root a := by
  induction anchor using QualifiedName.parent_induction generalizing a with
  | _ anchor ih =>
    cases hname : QualifiedName.parent? anchor with
    | none =>
      rw [QualifiedName.first_of_parent?_eq_none hname] at hfirst
      subst hfirst
      rw [h.sound.id_unique he h.root_placed]
      exact .refl
    | some name =>
      have hnot : (anchor, a) ∉ L := fun hmem => Nat.lt_irrefl _ (hdepth _ hmem)
      have hsome := (h.attached _ he (by simp [hname]) hfirst).resolve_right hnot
      obtain ⟨p, hp⟩ := Option.ne_none_iff_exists'.1 hsome
      obtain ⟨name', hname', hmem⟩ := h.sound.edges _ he p hp
      rw [hname] at hname'
      cases hname'
      have hlt := QualifiedName.depth_of_parent? hname
      exact (ih name hname hmem (by rw [← QualifiedName.first_of_parent? hname, hfirst]) fun o ho => by
        have := hdepth o ho
        omega).down hp

theorem top_eq_root_iff (h : Connecting r root (o :: L) b) (he : (anchor, a) ∈ b.placed)
    (hdepth : QualifiedName.depth anchor < QualifiedName.depth o.1) :
    b.forest.top a = root ↔ QualifiedName.first anchor = r := by
  constructor
  · intro htop
    have hbelow : b.forest.Below (b.forest.top a) a := Forest.below_top
    rw [htop] at hbelow
    rw [h.sound.first_of_below h.root_placed hbelow he, QualifiedName.first_of_parent?_eq_none h.root_bare]
  · intro hfirst
    obtain ⟨q, hq⟩ := h.below_root he hfirst (List.forall_mem_cons.2 ⟨hdepth, fun o' ho' =>
      Nat.lt_of_lt_of_le hdepth ((List.pairwise_cons.1 h.sorted).1 o' ho')⟩)
    exact Forest.top_eq_of_route h.sound.linked (h.sound.parent?_eq_none h.root_placed h.root_bare) hq

theorem pass (h : Connecting r root (o :: L) b) (hfirst : QualifiedName.first o.1 ≠ r) : Connecting r root L b where
  sound := h.sound
  root_placed := h.root_placed
  root_bare := h.root_bare
  sorted := (List.pairwise_cons.1 h.sorted).2
  ids_nodup := (List.nodup_cons.1 h.ids_nodup).2
  listed := fun o' ho' => h.listed o' (List.mem_cons_of_mem _ ho')
  attached := fun e he hname hr => (h.attached e he hname hr).imp_right fun hm =>
    (List.mem_cons.1 hm).resolve_left (by rintro rfl; exact hfirst hr)

/-- **An orphan is connected** through placeholders below its nearest ancestor. -/
theorem connect (h : Connecting r root (o :: L) b) (hfirst : QualifiedName.first o.1 = r)
    (ha : b.anchor? (QualifiedName.ancestors o.1) = some (a, missing)) :
    let down := b.extendDown a missing.reverse
    Connecting r root L (down.1.attach down.2 o.2) ∧ Extends b (down.1.attach down.2 o.2) ∧
      ∀ e ∈ (down.1.attach down.2 o.2).placed, e ∈ b.placed ∨
        ((down.1.attach down.2 o.2).forest.node e.2).content = ⟨.placeholder, true⟩ ∧
        e.1 ∈ QualifiedName.ancestors o.1 := by
  obtain ⟨anchor, hanchor, hup, hnew⟩ := anchor?_eq_some h.sound ha
  obtain ⟨hfill, name, hname, hmem⟩ := filled_extendDown h.sound hanchor hup hnew
  generalize b.extendDown a missing.reverse = down at hfill hmem
  obtain ⟨b₁, p⟩ := down
  dsimp only at hfill hmem ⊢
  obtain ⟨ho, hfree, -⟩ := h.listed o List.mem_cons_self
  have hlt := h.sound.lt_count (show (o.1, o.2) ∈ b.placed from ho)
  have hfree₁ := (hfill.old o.2 hlt).trans hfree
  have ho₁ : (o.1, o.2) ∈ b₁.placed := hfill.ext.mem ho
  have hattach := extends_attach hfree₁ (hfill.sound.lt_count ho₁) (hfill.sound.lt_count hmem)
  have hparent : ∀ x : Nat, (b₁.attach p o.2).forest.parent? x =
      if x = o.2 then some p else b₁.forest.parent? x := fun x =>
    parent?_attach hfree₁ (hfill.sound.lt_count ho₁) (hfill.sound.lt_count hmem)
  have hext := hfill.ext.trans hattach
  obtain ⟨hnotin, hnodup⟩ := List.nodup_cons.1 h.ids_nodup
  refine ⟨⟨hfill.sound.attach ho₁ hmem hname hfree₁, hext.mem h.root_placed, h.root_bare,
    (List.pairwise_cons.1 h.sorted).2, hnodup, fun o' ho' => ?_, fun e he hbare hr => ?_⟩, hext, fun e he => ?_⟩
  · obtain ⟨hplaced, hnone, hbare⟩ := h.listed o' (List.mem_cons_of_mem _ ho')
    refine ⟨hext.mem hplaced, ?_, hbare⟩
    have hne : o'.2 ≠ o.2 := fun heq => hnotin (List.mem_map.2 ⟨o', ho', heq⟩)
    rw [hparent, if_neg hne, hfill.old _ (h.sound.lt_count (show (o'.1, o'.2) ∈ b.placed from hplaced)), hnone]
  · rw [hparent]
    by_cases heq : e.2 = o.2
    · exact .inl (by rw [if_pos heq]; simp)
    · rw [if_neg heq]
      rcases hfill.fresh e he with hold | ⟨-, -, hpar⟩
      · rcases h.attached e hold hbare hr with hsome | hm
        · exact .inl (by rwa [hfill.old _ (h.sound.lt_count (show (e.1, e.2) ∈ b.placed from hold))])
        · exact .inr ((List.mem_cons.1 hm).resolve_left (by rintro rfl; exact heq rfl))
      · exact .inl hpar
  · refine (hfill.fresh e he).imp_right fun ⟨hcontent, hmem', _⟩ => ⟨?_, hmem'⟩
    rw [hattach.content e he, hcontent]

theorem anchor?_ne_none (h : Connecting r root (o :: L) b) (hfirst : QualifiedName.first o.1 = r) :
    b.anchor? (QualifiedName.ancestors o.1) ≠ none := by
  intro hnone
  obtain ⟨-, -, hbare⟩ := h.listed o List.mem_cons_self
  obtain ⟨p, hp⟩ := Option.ne_none_iff_exists'.1 hbare
  have hnew := anchor?_eq_none hnone r (hfirst ▸ QualifiedName.first_mem_ancestors hp)
  rw [h.sound.find?_eq_some.2 h.root_placed] at hnew
  cases hnew

theorem connectOrphans_cons (h : Connecting r root (o :: L) b) : b.connectOrphans root (o :: L) =
    if QualifiedName.first o.1 = r then
      match b.anchor? (QualifiedName.ancestors o.1) with
      | some (a, missing) =>
        ((b.extendDown a missing.reverse).1.attach (b.extendDown a missing.reverse).2 o.2).connectOrphans root L
      | none => (b, [])
    else ((b.connectOrphans root L).1, o.1 :: (b.connectOrphans root L).2) := by
  rw [connectOrphans]
  cases ha : b.anchor? (QualifiedName.ancestors o.1) with
  | none => rw [if_neg fun hfirst => h.anchor?_ne_none hfirst ha]
  | some found =>
    obtain ⟨a, missing⟩ := found
    obtain ⟨anchor, hanchor, hup, -⟩ := anchor?_eq_some h.sound ha
    have htop := h.top_eq_root_iff hanchor (QualifiedName.depth_of_mem_ancestors hup.mem_ancestors.1)
    have hfirst := QualifiedName.first_of_mem_ancestors hup.mem_ancestors.1
    dsimp only
    rw [← hfirst]
    by_cases hr : QualifiedName.first anchor = r
    · rw [if_pos (htop.2 hr), if_pos hr]
    · rw [if_neg (mt htop.1 hr), if_neg hr]

/-- **All orphans**: those that begin with the name of the root are connected, the others are given back. -/
theorem all (h : Connecting r root L b) :
    (b.connectOrphans root L).2 = (L.filter fun o => QualifiedName.first o.1 != r).map (·.1) ∧
      Connecting r root [] (b.connectOrphans root L).1 ∧ Extends b (b.connectOrphans root L).1 ∧
      ∀ e ∈ (b.connectOrphans root L).1.placed, e ∈ b.placed ∨
        ((b.connectOrphans root L).1.forest.node e.2).content = ⟨.placeholder, true⟩ ∧
          ∃ o ∈ L, QualifiedName.first o.1 = r ∧ e.1 ∈ QualifiedName.ancestors o.1 := by
  induction L generalizing b with
  | nil => exact ⟨rfl, h, .refl, fun e he => .inl he⟩
  | cons o L ih =>
    rw [h.connectOrphans_cons]
    by_cases hfirst : QualifiedName.first o.1 = r
    · rw [if_pos hfirst]
      cases ha : b.anchor? (QualifiedName.ancestors o.1) with
      | none => exact absurd ha (h.anchor?_ne_none hfirst)
      | some found =>
        obtain ⟨hnext, hext, hfresh⟩ := h.connect hfirst ha
        obtain ⟨hun, hdone, hext', hall⟩ := ih hnext
        refine ⟨by rw [hun, List.filter_cons_of_neg (by simpa using hfirst)], hdone, hext.trans hext', fun e he => ?_⟩
        rcases hall e he with he | ⟨hcontent, o', ho', hmem⟩
        · refine (hfresh e he).imp_right fun ⟨hcontent, hmem⟩ => ⟨?_, o, List.mem_cons_self, hfirst, hmem⟩
          rw [hext'.content e he, hcontent]
        · exact .inr ⟨hcontent, o', List.mem_cons_of_mem _ ho', hmem⟩
    · rw [if_neg hfirst]
      obtain ⟨hun, hdone, hext, hall⟩ := ih (h.pass hfirst)
      refine ⟨by rw [hun, List.filter_cons_of_pos (by simpa using hfirst)]; rfl, hdone, hext, fun e he => ?_⟩
      exact (hall e he).imp_right fun ⟨hcontent, o', ho', hmem⟩ => ⟨hcontent, o', List.mem_cons_of_mem _ ho', hmem⟩

end Connecting
end Builder
end SignalCatalog
