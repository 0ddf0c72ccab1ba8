import SignalCatalog.Proofs.Build.Sound
/-!
# Entry by entry

What a build is like after some entries, in whatever order they came: nodes are attached to the nodes of their parents'
names as far as these are there, and all others wait.
-/
namespace SignalCatalog
namespace Builder

variable {b : Builder} {mode : BuildMode} {fqn name : String} {id p x : Nat} {pl : Payload}

/-- **A build under way.** -/
structure Underway (mode : BuildMode) (b : Builder) : Prop where
  sound : b.Sound
  waiting : b.Waiting
  /-- Where ancestors are made at once, nobody waits. -/
  overlay : mode = .overlay → b.waiting = []

theorem underway_nil (mode : BuildMode) : Underway mode {} where
  sound := ⟨rfl, List.nodup_nil, by simp, by simp, by
    intro p c
    rw [Forest.children_of_count_le (Nat.zero_le _), Forest.parent?_of_count_le (Nat.zero_le _)]
    simp, fun p => by
    rw [Forest.children_of_count_le (Nat.zero_le _)]
    exact List.nodup_nil⟩
  waiting := ⟨List.nodup_nil, by simp, by simp⟩
  overlay := fun _ => rfl

/-! ## A new node -/

/-- A new node attached to the node of its parent's name, or what is done where there is none. -/
def link (b : Builder) (mode : BuildMode) (fqn : String) (id : NodeId) : Builder :=
  match QualifiedName.parent? fqn with
  | none => b
  | some parent =>
    match b.find? parent, mode with
    | some parentId, _ => b.attach parentId id
    | none, .overlay => b.connectUp id (QualifiedName.ancestors fqn)
    | none, _ => { b with waiting := b.waiting ++ [(parent, id)] }

abbrev declared (b : Builder) (fqn : String) (pl : Payload) : Builder :=
  (b.place fqn { name := QualifiedName.last fqn, payload := pl }).1

theorem addNew_eq (b : Builder) (mode : BuildMode) (fqn : String) (pl : Payload) : b.addNew mode fqn pl =
    ((b.declared fqn pl).link mode fqn b.forest.count).adopt fqn b.forest.count := rfl

theorem link_of_parent?_eq_none (h : QualifiedName.parent? fqn = none) : b.link mode fqn id = b := by rw [link, h]

theorem link_of_find? (h : QualifiedName.parent? fqn = some name) (hp : b.find? name = some p) :
    b.link mode fqn id = b.attach p id := by
  rw [link, h]
  simp only [hp]

theorem link_overlay (h : QualifiedName.parent? fqn = some name) (hp : b.find? name = none) :
    b.link .overlay fqn id = b.connectUp id (QualifiedName.ancestors fqn) := by
  rw [link, h]
  simp only [hp]

theorem link_wait (h : QualifiedName.parent? fqn = some name) (hp : b.find? name = none) (hmode : mode ≠ .overlay) :
    b.link mode fqn id = { b with waiting := b.waiting ++ [(name, id)] } := by
  rw [link, h]
  simp only [hp]

/-- **A node that is linked**: attached, or waiting, or without a parent to come. -/
theorem underway_link (h : Underway mode b) (hid : (fqn, id) ∈ b.placed) (hfree : b.forest.parent? id = none)
    (hnew : id ∉ b.waiting.map (·.2)) : Underway mode (b.link mode fqn id) ∧ Extends b (b.link mode fqn id) := by
  cases hname : QualifiedName.parent? fqn with
  | none =>
    rw [link_of_parent?_eq_none hname]
    exact ⟨h, .refl⟩
  | some name =>
    have hother : ∀ w ∈ b.waiting, w.2 ≠ id := fun w hw heq => hnew (heq ▸ List.mem_map_of_mem hw)
    cases hfind : b.find? name with
    | some p =>
      have hp := h.sound.find?_eq_some.1 hfind
      have hlt := h.sound.lt_count hid
      have hext := extends_attach hfree hlt (h.sound.lt_count hp)
      rw [link_of_find? hname hfind]
      refine ⟨⟨h.sound.attach hid hp hname hfree, ⟨h.waiting.nodup, fun w hw => ?_, h.waiting.named⟩, h.overlay⟩, hext⟩
      rw [parent?_attach hfree hlt (h.sound.lt_count hp), if_neg (hother w hw)]
      exact h.waiting.free w hw
    | none =>
      by_cases hmode : mode = .overlay
      · subst hmode
        obtain ⟨hs, hext, hwait, -⟩ := sound_connectUp h.sound hid hfree
        rw [link_overlay hname hfind]
        have hnone := hwait.trans (h.overlay rfl)
        exact ⟨⟨hs, ⟨by simp [hnone], by simp [hnone], by simp [hnone]⟩, fun _ => hnone⟩, hext⟩
      · -- nothing but the list of those that wait is changed
        rw [link_wait hname hfind hmode]
        refine ⟨⟨⟨h.sound.ids, h.sound.names_nodup, h.sound.named, h.sound.edges, h.sound.mem_children,
          h.sound.children_nodup⟩,
          ⟨?_, fun w hw => ?_, fun w hw => ?_⟩, fun hm => absurd hm hmode⟩,
            ⟨List.prefix_refl _, fun _ _ => rfl, fun h => h⟩⟩
        · rw [List.map_append, List.nodup_append]
          refine ⟨h.waiting.nodup, List.nodup_singleton _, fun c hc d hd => ?_⟩
          rw [List.mem_singleton.1 hd]
          exact ne_of_mem_of_not_mem hc hnew
        · rcases List.mem_append.1 hw with hw | hw
          · exact h.waiting.free w hw
          · rw [List.mem_singleton.1 hw]
            exact hfree
        · rcases List.mem_append.1 hw with hw | hw
          · exact h.waiting.named w hw
          · rw [List.mem_singleton.1 hw]
            exact ⟨fqn, hid, hname⟩

theorem underway_place (h : Underway mode b) (hnew : b.find? fqn = none) (pl : Payload) :
    Underway mode (b.declared fqn pl) where
  sound := h.sound.place hnew rfl rfl rfl
  waiting := ⟨h.waiting.nodup, fun w hw => (parent?_place rfl).trans (h.waiting.free w hw), fun w hw => by
    obtain ⟨name, hmem, hname⟩ := h.waiting.named w hw
    exact ⟨name, List.mem_append_left _ hmem, hname⟩⟩
  overlay := h.overlay

theorem Underway.count_not_mem_waiting (h : Underway mode b) : b.forest.count ∉ b.waiting.map (·.2) := by
  intro hc
  obtain ⟨w, hw, heq⟩ := List.mem_map.1 hc
  obtain ⟨name, hw, -⟩ := h.waiting.named w hw
  exact absurd (h.sound.lt_count hw) (by rw [heq]; exact Nat.lt_irrefl _)

theorem underway_addNew (h : Underway mode b) (hnew : b.find? fqn = none) (pl : Payload) :
    Underway mode (b.addNew mode fqn pl) ∧ Extends b (b.addNew mode fqn pl) := by
  have hplace := underway_place h hnew pl
  have hmem : (fqn, b.forest.count) ∈ (b.declared fqn pl).placed := mem_place
  obtain ⟨hlink, hext⟩ := underway_link hplace hmem
    (parent?_place_self rfl) h.count_not_mem_waiting
  obtain ⟨hs, hw, hext', -, -⟩ := adopt_spec hlink.sound hlink.waiting (hext.mem hmem)
  rw [addNew_eq]
  refine ⟨⟨hs, hw, fun hmode => ?_⟩, ((extends_place h.sound rfl).trans hext).trans hext'⟩
  rw [adopt, hlink.overlay hmode]
  rfl

theorem underway_add (h : Underway mode b) (fqn : String) (pl : Payload) : Underway mode (b.add mode fqn pl) := by
  rw [add]
  split
  · rename_i id _
    have hshape := Forest.sameShape_declare (a := id) (f := b.forest) pl
    exact ⟨h.sound.declare id pl, ⟨h.waiting.nodup, fun w hw => (hshape.parent? w.2).trans (h.waiting.free w hw),
      h.waiting.named⟩, h.overlay⟩
  · rename_i hnew
    exact (underway_addNew h hnew pl).1

theorem underway_addAll {r : Registry} {data : Mapping} {b' : Builder} (h : Underway mode b)
    (hadd : addAll r mode b data = .ok b') :
    Underway mode b' := addAll_induction (fun _ hb _ _ fqn pl _ => underway_add hb fqn pl) h hadd

/-! ## Nodes wait for what is not there -/

/-- **Whoever has no parent yet waits for it**, and what is waited for is not there. -/
structure Patient (b : Builder) : Prop where
  complete : ∀ e ∈ b.placed, ∀ name, QualifiedName.parent? e.1 = some name → b.forest.parent? e.2 = none →
    (name, e.2) ∈ b.waiting
  absent : ∀ w ∈ b.waiting, b.find? w.1 = none

theorem Patient.parent?_ne_none (h : b.Patient) (he : (fqn, id) ∈ b.placed)
    (hname : QualifiedName.parent? fqn = some name) (hmem : name ∈ b.placed.map (·.1)) :
    b.forest.parent? id ≠ none := fun hnone =>
  absurd hmem (find?_eq_none.1 (h.absent _ (h.complete _ he name hname hnone)))

theorem link_patient (h : b.Sound) (hmode : mode ≠ .overlay) (hid : (fqn, id) ∈ b.placed)
    (hfree : b.forest.parent? id = none) :
    (b.link mode fqn id).placed = b.placed ∧
      (∀ w ∈ b.waiting, w ∈ (b.link mode fqn id).waiting) ∧
      (∀ w ∈ (b.link mode fqn id).waiting, w ∈ b.waiting ∨ QualifiedName.parent? fqn = some w.1 ∧ b.find? w.1 = none) ∧
      (∀ name, QualifiedName.parent? fqn = some name → (b.link mode fqn id).forest.parent? id = none →
        (name, id) ∈ (b.link mode fqn id).waiting) := by
  cases hname : QualifiedName.parent? fqn with
  | none =>
    rw [link_of_parent?_eq_none hname]
    exact ⟨rfl, fun _ hw => hw, fun _ hw => .inl hw, fun _ h => by cases h⟩
  | some name =>
    cases hfind : b.find? name with
    | some p =>
      have hp := h.find?_eq_some.1 hfind
      rw [link_of_find? hname hfind]
      refine ⟨rfl, fun _ hw => hw, fun _ hw => .inl hw, fun _ _ hnone => ?_⟩
      rw [parent?_attach hfree (h.lt_count hid) (h.lt_count hp), if_pos rfl] at hnone
      cases hnone
    | none =>
      rw [link_wait hname hfind hmode]
      refine ⟨rfl, fun _ hw => List.mem_append_left _ hw, fun w hw => ?_, fun name' hname' _ => ?_⟩
      · rcases List.mem_append.1 hw with hw | hw
        · exact .inl hw
        · rw [List.mem_singleton.1 hw]
          exact .inr ⟨rfl, hfind⟩
      · cases hname'
        exact List.mem_append_right _ List.mem_cons_self

theorem find?_eq_none_of_place (h : b.find? name = none) (hne : name ≠ fqn) (n : Node) :
    (b.place fqn n).1.find? name = none := by
  rw [find?_eq_none] at *
  change name ∉ (b.placed ++ [(fqn, b.forest.count)]).map (·.1)
  rw [List.map_append, List.mem_append, not_or]
  exact ⟨h, by simpa using hne⟩

/-- **A new entry**: its node comes last, and patience is kept. -/
theorem addNew_patient (h : Underway mode b) (hb : b.Patient) (hmode : mode ≠ .overlay)
    (hnew : b.find? fqn = none) (pl : Payload) :
    (b.addNew mode fqn pl).Patient ∧ (b.addNew mode fqn pl).placed = b.placed ++ [(fqn, b.forest.count)] ∧
      ((b.addNew mode fqn pl).forest.node b.forest.count).content = ⟨pl, false⟩ := by
  have hplace := underway_place h hnew pl
  have hmem : (fqn, b.forest.count) ∈ (b.declared fqn pl).placed := mem_place
  have hfree : (b.declared fqn pl).forest.parent? b.forest.count = none := parent?_place_self rfl
  have hfresh : b.forest.count ∉ (b.declared fqn pl).waiting.map (·.2) := h.count_not_mem_waiting
  obtain ⟨hlink, hext⟩ := underway_link hplace hmem hfree hfresh
  obtain ⟨hplaced, hkept, hwaits, hself⟩ := link_patient hplace.sound hmode hmem hfree
  obtain ⟨-, -, hext', hplaced', hparent⟩ := adopt_spec hlink.sound hlink.waiting (hext.mem hmem)
  rw [addNew_eq]
  have hall := hplaced'.trans hplaced
  refine ⟨⟨fun e he name hname hnone => ?_, fun w hw => ?_⟩, hall, ?_⟩
  · rw [hparent] at hnone
    split at hnone
    · cases hnone
    rename_i hadopted
    have hin : (name, e.2) ∈ ((b.declared fqn pl).link mode fqn b.forest.count).waiting := by
      rw [hall] at he
      rcases List.mem_append.1 he with he | he
      · refine hkept _ (hb.complete e he name hname ?_)
        cases hp : b.forest.parent? e.2 with
        | none => rfl
        | some p =>
          have := hext.parent? ((parent?_place rfl).trans hp)
          rw [hnone] at this
          cases this
      · rw [List.mem_singleton.1 he] at hname hnone ⊢
        exact hself name hname hnone
    refine List.mem_filter.2 ⟨hin, bne_iff_ne.2 ?_⟩
    rintro rfl
    exact hadopted (List.mem_map.2 ⟨(name, e.2), List.mem_filter.2 ⟨hin, beq_self_eq_true _⟩, rfl⟩)
  · obtain ⟨hw, hne⟩ := List.mem_filter.1 hw
    have hne : w.1 ≠ fqn := bne_iff_ne.1 hne
    have hnone : (b.declared fqn pl).find? w.1 = none := by
      rcases hwaits w hw with hw | ⟨-, hnone⟩
      · exact find?_eq_none_of_place (hb.absent w hw) hne _
      · exact hnone
    rw [find?_eq_none] at hnone ⊢
    rwa [hplaced', hplaced]
  · rw [hext'.content _ (hext.mem hmem), hext.content _ hmem]
    exact content_place

end Builder
end SignalCatalog
