import SignalCatalog.Proofs.Build.Connect
/-!
# The tree of an overlay build

An overlay need not declare the ancestors of its nodes: they are made as soon as a node asks for them, and a later entry
takes over what was made in its place.  In whatever order the entries come, the tree is the closure of their names.
-/
namespace SignalCatalog
namespace Builder

variable {b : Builder} {r : Registry} {data : Mapping} {entries : List (String × Payload)} {fqn : String}
  {id : Nat} {pl : Payload}

/-- **Placeholders made on the way up** are attached, up to a name without a dot, and so is the node that asked
for them. -/
theorem fresh_connectUp (h : b.Sound) (hid : (fqn, id) ∈ b.placed) (hfree : b.forest.parent? id = none) :
    let b' := b.connectUp id (QualifiedName.ancestors fqn)
    (QualifiedName.parent? fqn ≠ none → b'.forest.parent? id ≠ none) ∧
      ∀ e ∈ b'.placed, e ∈ b.placed ∨ (b'.forest.node e.2).content = ⟨.placeholder, true⟩ ∧
      e.1 ∈ QualifiedName.ancestors fqn ∧
        (QualifiedName.parent? e.1 ≠ none → b'.forest.parent? e.2 ≠ none) := by
  -- each placeholder is placed before it asks for its own parent, so the hypothesis is about the builder that has it
  induction fqn using QualifiedName.parent_induction generalizing b id with
  | _ fqn ih =>
    cases hname : QualifiedName.parent? fqn with
    | none =>
      rw [QualifiedName.ancestors_of_parent?_eq_none hname]
      exact ⟨by simp, fun e he => .inl he⟩
    | some name =>
      have hlt := h.lt_count hid
      rw [QualifiedName.ancestors_of_parent? hname]
      cases hfind : b.find? name with
      | some p =>
        have hltp := h.lt_count (h.find?_eq_some.1 hfind)
        rw [connectUp_cons_some hfind]
        refine ⟨fun _ => ?_, fun e he => .inl he⟩
        rw [parent?_attach hfree hlt hltp, if_pos rfl]
        simp
      | none =>
        have hplace := sound_placeholder h hfind
        have hext : Extends b (b.placeholder name).1 := extends_place h rfl
        have hmem : (name, b.forest.count) ∈ (b.placeholder name).1.placed := mem_place
        have hparent : ∀ x : Nat, (b.placeholder name).1.forest.parent? x = b.forest.parent? x :=
          fun x => parent?_place rfl
        have hroot : (b.placeholder name).1.forest.parent? b.forest.count = none :=
          (hparent _).trans (Forest.parent?_of_count_le (Nat.le_refl _))
        obtain ⟨hs, hext', -, hother⟩ := sound_connectUp hplace hmem hroot
        obtain ⟨hself, hfresh⟩ := ih name hname hplace hmem hroot
        rw [connectUp_cons_none hfind]
        generalize (b.placeholder name).1.connectUp b.forest.count (QualifiedName.ancestors name) = b₁ at *
        have hcount : (b.placeholder name).1.forest.count = b.forest.count + 1 := Forest.count_add _
        have hstill : b₁.forest.parent? id = none :=
          (hother id (by omega) (Nat.ne_of_lt hlt)).trans ((hparent id).trans hfree)
        have hltp := hs.lt_count (hext'.mem hmem)
        have hattach := extends_attach hstill (hs.lt_count (hext'.mem (hext.mem hid))) hltp
        have hall : ∀ x : Nat, (b₁.attach b.forest.count id).forest.parent? x =
            if x = id then some b.forest.count else b₁.forest.parent? x :=
          fun x => parent?_attach hstill (hs.lt_count (hext'.mem (hext.mem hid))) hltp
        refine ⟨fun _ => ?_, fun e he => ?_⟩
        · rw [hall, if_pos rfl]
          simp
        · have hkeep : b₁.forest.parent? e.2 ≠ none → (b₁.attach b.forest.count id).forest.parent? e.2 ≠ none := by
            rw [hall]
            split <;> simp
          rcases hfresh e he with he' | ⟨hcontent, hanc, hpar⟩
          · rcases List.mem_append.1 he' with hold | hnew
            · exact .inl hold
            · obtain rfl := List.mem_singleton.1 hnew
              refine .inr ⟨?_, List.mem_cons_self, fun hp => hkeep (hself hp)⟩
              exact (hattach.content _ (hext'.mem hmem)).trans ((hext'.content _ hmem).trans content_place)
          · exact .inr ⟨(hattach.content e he).trans hcontent, List.mem_cons_of_mem _ hanc, fun hp => hkeep (hpar hp)⟩

/-! ## Entry by entry -/

/-- **A builder that has made all missing ancestors**, for declared nodes only. -/
structure Complete (b : Builder) : Prop where
  underway : Underway .overlay b
  attached : ∀ e ∈ b.placed, QualifiedName.parent? e.1 ≠ none → b.forest.parent? e.2 ≠ none
  anchored : ∀ e ∈ b.placed, ∃ d ∈ b.placed, (b.forest.node d.2).autogenerated = false ∧
    QualifiedName.segments e.1 <+: QualifiedName.segments d.1

/-- **An overlay after some entries**: the nodes are the beginnings of the names. -/
structure Overlaid (entries : List (String × Payload)) (b : Builder) : Prop extends Complete b where
  declared : ∀ d ∈ entries, ∃ id, (d.1, id) ∈ b.placed ∧ (b.forest.node id).content = ⟨d.2, false⟩
  others : ∀ e ∈ b.placed, e.1 ∉ entries.map (·.1) → (b.forest.node e.2).content = ⟨.placeholder, true⟩
  named : ∀ e ∈ b.placed, ∃ d ∈ entries, QualifiedName.segments e.1 <+: QualifiedName.segments d.1

theorem complete_nil : Complete {} := ⟨underway_nil .overlay, by simp, by simp⟩

theorem overlaid_nil : Overlaid [] {} := ⟨complete_nil, by simp, by simp, by simp⟩

theorem fresh_addNew (h : Underway .overlay b) (hnew : b.find? fqn = none) (pl : Payload) :
    let b' := b.addNew .overlay fqn pl
    (QualifiedName.parent? fqn ≠ none → b'.forest.parent? b.forest.count ≠ none) ∧
      (fqn, b.forest.count) ∈ b'.placed ∧ (b'.forest.node b.forest.count).content = ⟨pl, false⟩ ∧
      ∀ e ∈ b'.placed, e ∈ b.placed ∨ e = (fqn, b.forest.count) ∨ (b'.forest.node e.2).content = ⟨.placeholder, true⟩ ∧
        e.1 ∈ QualifiedName.ancestors fqn ∧ (QualifiedName.parent? e.1 ≠ none → b'.forest.parent? e.2 ≠ none) := by
  have hplace := underway_place h hnew pl
  have hmem : (fqn, b.forest.count) ∈ (b.declared fqn pl).placed := mem_place
  have hfree : (b.declared fqn pl).forest.parent? b.forest.count = none := parent?_place_self rfl
  have hwait : b.waiting = [] := h.overlay rfl
  obtain ⟨hlink, hext⟩ := underway_link hplace hmem hfree (by simp [hwait])
  -- nobody waits, so nobody is adopted
  have hadopt : b.addNew .overlay fqn pl = (b.declared fqn pl).link .overlay fqn b.forest.count := by
    rw [addNew_eq, adopt, hlink.overlay rfl]
    simp only [List.filter_nil, List.map_nil, List.foldl_nil]
    rw [← hlink.overlay rfl]
  have hold : ∀ e ∈ (b.declared fqn pl).placed, e ∈ b.placed ∨ e = (fqn, b.forest.count) := by
    intro e he
    rcases List.mem_append.1 he with he | he
    · exact .inl he
    · exact .inr (List.mem_singleton.1 he)
  dsimp only
  rw [hadopt]
  refine ⟨fun hbare => ?_, hext.mem hmem, (hext.content _ hmem).trans content_place, fun e he => ?_⟩
  · obtain ⟨name, hname⟩ := Option.ne_none_iff_exists'.1 hbare
    cases hfind : (b.declared fqn pl).find? name with
    | some p =>
      have hltp := hplace.sound.lt_count (hplace.sound.find?_eq_some.1 hfind)
      rw [link_of_find? hname hfind, parent?_attach hfree (hplace.sound.lt_count hmem) hltp, if_pos rfl]
      simp
    | none =>
      rw [link_overlay hname hfind]
      exact (fresh_connectUp hplace.sound hmem hfree).1 hbare
  · cases hname : QualifiedName.parent? fqn with
    | none =>
      rw [link_of_parent?_eq_none hname] at he
      exact (hold e he).imp_right .inl
    | some name =>
      cases hfind : (b.declared fqn pl).find? name with
      | some p =>
        rw [link_of_find? hname hfind] at he
        exact (hold e he).imp_right .inl
      | none =>
        rw [link_overlay hname hfind] at he ⊢
        rcases (fresh_connectUp hplace.sound hmem hfree).2 e he with he | hfresh
        · exact (hold e he).imp_right .inl
        · exact .inr (.inr hfresh)

theorem content_declare {x : Nat} (hlt : id < b.forest.count) (pl : Payload) :
    ((b.forest.modify id fun n => n.declare pl).node x).content =
    if x = id then ⟨pl, false⟩ else (b.forest.node x).content := by
  by_cases hx : x = id
  · rw [if_pos hx, hx, Forest.node_modify_self _ hlt]
    rfl
  · rw [if_neg hx, Forest.node_modify_ne _ hx]

theorem Complete.add (h : Complete b) (fqn : String) (pl : Payload) : Complete (b.add .overlay fqn pl) := by
  have hunderway := underway_add h.underway fqn pl
  have hs := h.underway.sound
  rw [Builder.add] at hunderway ⊢
  cases hfind : b.find? fqn with
  | some id =>
    simp only [hfind] at hunderway ⊢
    have hshape := Forest.sameShape_declare (a := id) (f := b.forest) pl
    refine ⟨hunderway, fun e he hbare => (hshape.parent? e.2).trans_ne (h.attached e he hbare), fun e he => ?_⟩
    obtain ⟨d, hd, hown, hpre⟩ := h.anchored e he
    refine ⟨d, hd, ?_, hpre⟩
    have hcontent :=
      congrArg Content.autogenerated (content_declare (x := d.2) (hs.lt_count (hs.find?_eq_some.1 hfind)) pl)
    refine hcontent.trans ?_
    split
    · rfl
    · exact hown
  | none =>
    simp only [hfind] at hunderway ⊢
    obtain ⟨hself, hmem, hcontent, hfresh⟩ := fresh_addNew h.underway hfind pl
    have hext := (underway_addNew h.underway hfind pl).2
    have hown : ((b.addNew .overlay fqn pl).forest.node b.forest.count).autogenerated = false :=
      congrArg Content.autogenerated hcontent
    refine ⟨hunderway, fun e he hbare => ?_, fun e he => ?_⟩
    · rcases hfresh e he with he | rfl | ⟨-, -, hpar⟩
      · obtain ⟨p, hp⟩ := Option.ne_none_iff_exists'.1 (h.attached e he hbare)
        simp [hext.parent? hp]
      · exact hself hbare
      · exact hpar hbare
    · rcases hfresh e he with he | rfl | ⟨-, hanc, -⟩
      · obtain ⟨d, hd, hdown, hpre⟩ := h.anchored e he
        exact ⟨d, hext.mem hd, (congrArg Content.autogenerated (hext.content d hd)).trans hdown, hpre⟩
      · exact ⟨_, hmem, hown, List.prefix_refl _⟩
      · exact ⟨_, hmem, hown, (QualifiedName.mem_ancestors_iff.1 hanc).1⟩

theorem complete_of_addAll {b' : Builder} (hadd : addAll r .overlay {} data = .ok b') : Complete b' :=
  addAll_induction (fun _ hb _ _ fqn pl _ => hb.add fqn pl) complete_nil hadd

/-- **One more entry**, with a name of its own: it takes over the placeholder of its name, or its node is made with all
ancestors. -/
theorem Overlaid.add (h : Overlaid entries b) (hnew : fqn ∉ entries.map (·.1)) (pl : Payload) :
    Overlaid (entries ++ [(fqn, pl)]) (b.add .overlay fqn pl) := by
  have hcomplete := h.toComplete.add fqn pl
  have hnotin {e : String × NodeId} (hno : e.1 ∉ (entries ++ [(fqn, pl)]).map (·.1)) :
      e.1 ∉ entries.map (·.1) ∧ e.1 ≠ fqn := by
    simpa [not_or] using hno
  have hnamed : ∀ e ∈ b.placed, ∃ d ∈ entries ++ [(fqn, pl)],
      QualifiedName.segments e.1 <+: QualifiedName.segments d.1 := by
    intro e he
    obtain ⟨d, hd, hpre⟩ := h.named e he
    exact ⟨d, List.mem_append_left _ hd, hpre⟩
  have hs := h.underway.sound
  rw [Builder.add] at hcomplete ⊢
  cases hfind : b.find? fqn with
  | some id =>
    -- the node of the placeholder stays, and no other one has its name
    simp only [hfind] at hcomplete ⊢
    have hid := hs.find?_eq_some.1 hfind
    have hcontent (x : Nat) := content_declare (x := x) (hs.lt_count hid) pl
    refine ⟨hcomplete, fun d hd => ?_, fun e he hno => ?_, hnamed⟩
    · rcases List.mem_append.1 hd with hd | hd
      · obtain ⟨i, hi, hi'⟩ := h.declared d hd
        refine ⟨i, hi, (hcontent i).trans ((if_neg ?_).trans hi')⟩
        rintro rfl
        exact hnew (List.mem_map.2 ⟨d, hd, hs.name_unique hi hid⟩)
      · obtain rfl := List.mem_singleton.1 hd
        exact ⟨id, hid, (hcontent id).trans (if_pos rfl)⟩
    · obtain ⟨hno, hne⟩ := hnotin hno
      refine (hcontent e.2).trans ((if_neg fun heq => hne ?_).trans (h.others e he hno))
      exact hs.name_unique (i := id) (heq ▸ he) hid
  | none =>
    simp only [hfind] at hcomplete ⊢
    obtain ⟨-, hmem, hcontent, hfresh⟩ := fresh_addNew h.underway hfind pl
    have hext := (underway_addNew h.underway hfind pl).2
    refine ⟨hcomplete, fun d hd => ?_, fun e he hno => ?_, fun e he => ?_⟩
    · rcases List.mem_append.1 hd with hd | hd
      · obtain ⟨i, hi, hi'⟩ := h.declared d hd
        exact ⟨i, hext.mem hi, (hext.content _ hi).trans hi'⟩
      · obtain rfl := List.mem_singleton.1 hd
        exact ⟨_, hmem, hcontent⟩
    · obtain ⟨hno, hne⟩ := hnotin hno
      rcases hfresh e he with he | rfl | ⟨hcontent, -⟩
      · exact (hext.content e he).trans (h.others e he hno)
      · exact absurd rfl hne
      · exact hcontent
    · have hlast : (fqn, pl) ∈ entries ++ [(fqn, pl)] := List.mem_append_right _ List.mem_cons_self
      rcases hfresh e he with he | rfl | ⟨-, hanc, -⟩
      · exact hnamed e he
      · exact ⟨_, hlast, List.prefix_refl _⟩
      · exact ⟨_, hlast, (QualifiedName.mem_ancestors_iff.1 hanc).1⟩

theorem Overlaid.addAll {done : List (String × Payload)} (h : Overlaid done b)
    (hread : List.Forall₂ (ReadsAs r) data entries) (hnodup : ((done ++ entries).map (·.1)).Nodup) :
    ∃ b', addAll r .overlay b data = .ok b' ∧ Overlaid (done ++ entries) b' := by
  induction hread generalizing b done with
  | nil => exact ⟨b, rfl, by rwa [List.append_nil]⟩
  | @cons e d data entries hed _ ih =>
    obtain ⟨key, value⟩ := e
    obtain ⟨fqn, pl⟩ := d
    obtain ⟨rfl, hpl⟩ := hed
    rw [List.append_cons] at hnodup ⊢
    have hnew : fqn ∉ done.map (·.1) := by
      rw [List.append_assoc, List.map_append, List.nodup_append] at hnodup
      exact fun hin => hnodup.2.2 fqn hin fqn (List.mem_map_of_mem List.mem_cons_self) rfl
    obtain ⟨b', hadd, hb'⟩ := ih (h.add hnew pl) hnodup
    refine ⟨b', ?_, hb'⟩
    rw [addAll_cons (show (Value.string fqn).asString? = some fqn from rfl) hpl]
    exact hadd

/-! ## The outcome -/

namespace Complete

variable (h : Complete b)
include h

/-- **Names without a dot are the roots**; no other node is unattached. -/
theorem unattached_eq : b.unattached = b.placed.filter fun e => !QualifiedName.isQualified e.1 := by
  rw [unattached]
  refine List.filter_congr fun e he => ?_
  cases hq : QualifiedName.isQualified e.1 with
  | true =>
    have hbare : QualifiedName.parent? e.1 ≠ none := by simp [QualifiedName.parent?_eq_none_iff, hq]
    obtain ⟨p, hp⟩ := Option.ne_none_iff_exists'.1 (h.attached e he hbare)
    simp [hp]
  | false => simp [h.underway.sound.parent?_eq_none he (QualifiedName.parent?_eq_none_iff.2 hq)]

theorem roots_eq : b.roots = b.unattached := by
  rw [roots, h.unattached_eq, List.filter_filter]
  simp

theorem orphans_eq : b.orphans = [] := by
  rw [orphans, h.unattached_eq, List.filter_filter]
  simp

theorem nodup_roots : (b.unattached.map (·.1)).Nodup := h.underway.sound.names_nodup.sublist (List.filter_sublist.map _)

theorem first_mem_roots {e : String × NodeId} (he : e ∈ b.placed) :
    QualifiedName.first e.1 ∈ b.unattached.map (·.1) := by
  obtain ⟨i, hi⟩ : ∃ i, (QualifiedName.first e.1, i) ∈ b.placed := by
    cases hp : QualifiedName.parent? e.1 with
    | none =>
      rw [QualifiedName.first_of_parent?_eq_none hp]
      exact ⟨e.2, he⟩
    | some p =>
      exact h.underway.sound.exists_ancestor (fun e he hbare _ => h.attached e he hbare) he rfl
        (QualifiedName.first_mem_ancestors hp)
  rw [h.unattached_eq]
  exact List.mem_map.2 ⟨_, List.mem_filter.2 ⟨hi, by simp⟩, rfl⟩

/-- **With one root**, an overlay is connected from the start. -/
theorem connecting {root : Nat} {name : String} (hroot : b.unattached = [(name, root)]) :
    Connecting name root [] b ∧ ∀ e ∈ b.placed, QualifiedName.first e.1 = name := by
  have hmem : (name, root) ∈ b.unattached := by simp [hroot]
  have hbare : QualifiedName.isQualified name = false := by
    rw [h.unattached_eq] at hmem
    simpa using (List.mem_filter.1 hmem).2
  have hplaced := (mem_unattached.1 hmem).1
  refine ⟨⟨h.underway.sound, hplaced, QualifiedName.parent?_eq_none_iff.2 hbare, .nil, List.nodup_nil, by simp,
    fun e he hname _ => .inl (h.attached e he hname)⟩, fun e he => ?_⟩
  simpa [hroot] using h.first_mem_roots he

/-- **What an overlay is finished to** depends on its roots alone. -/
theorem finish : b.finish .overlay =
    match b.unattached with
    | [] => .error .noRoots
    | [(_, root)] => .ok ⟨{ b.forest with root }, []⟩
    | many => .error (.multipleRoots (many.map (·.1))) := by
  cases hroots : b.unattached with
  | nil => exact finish_noRoots (h.roots_eq.trans hroots)
  | cons e l =>
    cases l with
    | nil => rw [finish_overlay (h.roots_eq.trans hroots), h.orphans_eq]
    | cons e' l => exact finish_multipleRoots (h.roots_eq.trans hroots)

end Complete

/-- **The roots are the first segments**, each once. -/
theorem Overlaid.mem_roots_iff (h : Overlaid entries b) {s : String} :
    s ∈ b.unattached.map (·.1) ↔ ∃ k ∈ entries.map (·.1), QualifiedName.first k = s := by
  constructor
  · rw [h.unattached_eq]
    intro hs
    obtain ⟨e, he, rfl⟩ := List.mem_map.1 hs
    obtain ⟨he, hbare⟩ := List.mem_filter.1 he
    obtain ⟨d, hd, hpre⟩ := h.named e he
    refine ⟨d.1, List.mem_map_of_mem hd, ?_⟩
    rw [QualifiedName.segments_of_not_isQualified (by simpa using hbare)] at hpre
    obtain ⟨rest, hrest⟩ := hpre
    exact QualifiedName.first_of_segments hrest.symm
  · rintro ⟨k, hk, rfl⟩
    obtain ⟨d, hd, rfl⟩ := List.mem_map.1 hk
    obtain ⟨id, he, -⟩ := h.declared d hd
    exact h.first_mem_roots he

end Builder

open QualifiedName in
/-- **An overlay build makes exactly the missing ancestors**: it needs one first segment for all names, and holds every
beginning of every name once; declared nodes have their payloads, whatever was there before them, and the others are
placeholders. -/
theorem build_overlay_exact {r : Registry} {data : Mapping} {entries : List (String × Payload)}
    (hdistinct : data.Distinct) (hread : List.Forall₂ (ReadsAs r) data entries) :
    let names := entries.map (·.1)
    (build r .overlay data = .error .noRoots ↔ data = []) ∧
    ((∃ l, build r .overlay data = .error (.multipleRoots l)) ↔ ∃ k ∈ names, ∃ k' ∈ names, first k ≠ first k') ∧
    (∀ l, build r .overlay data = .error (.multipleRoots l) → l.Nodup ∧ ∀ s, s ∈ l ↔ ∃ k ∈ names, first k = s) ∧
    (data ≠ [] → (∀ k ∈ names, ∀ k' ∈ names, first k = first k') →
      ∃ t, build r .overlay data = .ok ⟨t, []⟩ ∧ Builder.IsClosure entries t) := by
  intro names
  obtain ⟨b, hadd, hb⟩ := Builder.overlaid_nil.addAll hread (Builder.nodup_names_of_distinct hread hdistinct)
  rw [List.nil_append] at hb
  have hbuild := Builder.build_of_addAll hadd
  have hroots {s : String} : s ∈ b.unattached.map (·.1) ↔ ∃ k ∈ names, first k = s := hb.mem_roots_iff
  have hempty : data = [] ↔ names = [] := by
    rw [List.map_eq_nil_iff]
    cases hread <;> simp
  rw [hbuild, hb.finish, hempty]
  cases hun : b.unattached with
  | nil =>
    have hnone : names = [] := List.eq_nil_iff_forall_not_mem.2 fun k hk => by
      have := hroots.2 ⟨k, hk, rfl⟩
      simp [hun] at this
    simp [hempty, hnone]
  | cons e l =>
    have hsome : names ≠ [] := by
      obtain ⟨k, hk, -⟩ := hroots.1 (List.mem_map_of_mem (hun ▸ List.mem_cons_self))
      exact List.ne_nil_of_mem hk
    cases l with
    | nil =>
      have hfirst : ∀ k ∈ names, first k = e.1 := fun k hk => by
        have := hroots.2 ⟨k, hk, rfl⟩
        simpa [hun] using this
      obtain ⟨hconn, hall⟩ := hb.connecting hun
      refine ⟨by simp [hsome], iff_of_false (by simp) ?_, by simp, fun _ _ =>
        ⟨_, rfl, hconn.isClosure hall hb.declared hb.others hb.named⟩⟩
      rintro ⟨k, hk, k', hk', hne⟩
      exact hne ((hfirst k hk).trans (hfirst k' hk').symm)
    | cons e' l =>
      have hnodup := hb.nodup_roots
      rw [hun] at hnodup hroots
      have hne : e.1 ≠ e'.1 := fun heq => by simp [heq] at hnodup
      obtain ⟨k, hk, hke⟩ := hroots.1 (show e.1 ∈ _ by simp)
      obtain ⟨k', hk', hke'⟩ := hroots.1 (show e'.1 ∈ _ by simp)
      have hdiffer : first k ≠ first k' := by rwa [hke, hke']
      refine ⟨by simp [hsome], iff_of_true ⟨_, rfl⟩ ⟨k, hk, k', hk', hdiffer⟩, fun l hl => ?_, fun _ hsame => ?_⟩
      · cases hl
        exact ⟨hnodup, fun s => hroots⟩
      · exact absurd (hsame k hk k' hk') hdiffer

/-- A door that is to be deleted comes before the cabin it is in, and no entry is there for the vehicle. -/
theorem build_overlay_door :
    let door := Value.mapping [(.string "type", .string "branch"), (.string "description", .string "a door"),
      (.string "delete", .bool true)]
    ∃ t, build {} .overlay [(.string "Vehicle.Cabin.Door", door), (.string "Vehicle.Cabin", branchEntry "a cabin")] =
      .ok ⟨t, []⟩ ∧
      Builder.IsClosure [
        ("Vehicle.Cabin.Door", { common := { description := "a door", delete := true }, body := .branch [] }),
        ("Vehicle.Cabin", .branch "a cabin")] t :=
  (build_overlay_exact (by simp [Mapping.Distinct, Value.same]) (.cons ⟨rfl, rfl⟩ (.cons ⟨rfl, rfl⟩ .nil))).2.2.2
    (by simp) (by decide)

end SignalCatalog
