import SignalCatalog.Proofs.Build.Outcome
/-!
# The tree of a connecting build

From different names in any order a connecting build makes the tree of all their beginnings: a node with its payload for
every name, and placeholders between them.
-/
namespace SignalCatalog

/-- An entry that a build can read: a name that is an untagged string, and a payload. -/
def ReadsAs (r : Registry) (e : Value × Value) (d : String × Payload) : Prop :=
  e.1 = .string d.1 ∧ Payload.read r e.2 = .ok d.2

namespace Builder

variable {b b' : Builder} {r : Registry} {mode : BuildMode} {data : Mapping}
  {entries : List (String × Payload)} {fqn name : String} {id x root : Nat}

theorem addAll_cons {key value : Value} {pl : Payload} (hkey : key.asString? = some fqn)
    (hpl : Payload.read r value = .ok pl) :
    addAll r mode b ((key, value) :: data) = addAll r mode (b.add mode fqn pl) data := by
  rw [addAll, hkey]
  dsimp only
  rw [hpl]

theorem add_of_find?_eq_none {pl : Payload} (h : b.find? fqn = none) : b.add mode fqn pl = b.addNew mode fqn pl := by
  rw [add, h]

theorem addAll_spec (hmode : mode ≠ .overlay) (h : Underway mode b) (hb : b.Patient)
    (hread : List.Forall₂ (ReadsAs r) data entries) (hnodup : (entries.map (·.1)).Nodup)
    (hnew : ∀ d ∈ entries, b.find? d.1 = none) :
    ∃ b', addAll r mode b data = .ok b' ∧ Underway mode b' ∧ b'.Patient ∧ Extends b b' ∧
      b'.placed.map (·.1) = b.placed.map (·.1) ++ entries.map (·.1) ∧
      ∀ d ∈ entries, ∃ id, (d.1, id) ∈ b'.placed ∧ (b'.forest.node id).content = ⟨d.2, false⟩ := by
  induction hread generalizing b with
  | nil => exact ⟨b, rfl, h, hb, .refl, by simp, by simp⟩
  | @cons e d data entries hed _ ih =>
    obtain ⟨key, value⟩ := e
    obtain ⟨fqn, pl⟩ := d
    obtain ⟨rfl, hpl⟩ := hed
    dsimp only at hpl
    obtain ⟨hfqn, hnodup⟩ := List.nodup_cons.1 hnodup
    obtain ⟨hfree, hnew⟩ := List.forall_mem_cons.1 hnew
    obtain ⟨hnext, hext⟩ := underway_addNew h hfree pl
    obtain ⟨hpatient, hplaced, hcontent⟩ := addNew_patient h hb hmode hfree pl
    obtain ⟨b', hadd, hunder, hpat, hext', hnames, hall⟩ := ih hnext hpatient hnodup fun d hd => by
      rw [find?_eq_none, hplaced, List.map_append, List.mem_append, not_or]
      refine ⟨find?_eq_none.1 (hnew d hd), fun hmem => hfqn ?_⟩
      rw [← List.mem_singleton.1 hmem]
      exact List.mem_map_of_mem hd
    have hself : (fqn, b.forest.count) ∈ (b.addNew mode fqn pl).placed := by
      rw [hplaced]
      exact List.mem_append_right _ List.mem_cons_self
    refine ⟨b', ?_, hunder, hpat, hext.trans hext', ?_, List.forall_mem_cons.2 ⟨⟨_, hext'.mem hself, ?_⟩, hall⟩⟩
    · rw [addAll_cons (show (Value.string fqn).asString? = some fqn from rfl) hpl, add_of_find?_eq_none hfree]
      exact hadd
    · rw [hnames, hplaced]
      simp
    · rw [hext'.content _ hself, hcontent]

/-! ## After the entries -/

/-- Whether the parent of a name is not among some names. -/
def lacksParent (names : List String) (name : String) : Bool :=
  (QualifiedName.parent? name).any fun p => !names.contains p

theorem lacksParent_iff {names : List String} :
    lacksParent names name = true ↔ ∃ p, QualifiedName.parent? name = some p ∧ p ∉ names := by
  rw [lacksParent]
  cases QualifiedName.parent? name <;> simp

/-- **A builder that has taken in some entries.** -/
structure Entered (entries : List (String × Payload)) (b : Builder) : Prop where
  sound : b.Sound
  patient : b.Patient
  names : b.placed.map (·.1) = entries.map (·.1)
  content : ∀ d ∈ entries, ∃ id, (d.1, id) ∈ b.placed ∧ (b.forest.node id).content = ⟨d.2, false⟩

theorem exists_entered (hmode : mode ≠ .overlay) (hread : List.Forall₂ (ReadsAs r) data entries)
    (hnodup : (entries.map (·.1)).Nodup) :
    ∃ b, addAll r mode {} data = .ok b ∧ Entered entries b := by
  obtain ⟨b, hadd, hunder, hpat, -, hnames, hcontent⟩ :=
    addAll_spec hmode (underway_nil mode) ⟨by simp, by simp⟩ hread hnodup
    fun d _ => rfl
  exact ⟨b, hadd, hunder.sound, hpat, by simpa using hnames, hcontent⟩

namespace Entered

variable (h : Entered entries b)
include h

theorem parent?_isNone (e : String × NodeId) (he : e ∈ b.placed) : (b.forest.parent? e.2).isNone = true ↔
    QualifiedName.isQualified e.1 = false ∨ lacksParent (entries.map (·.1)) e.1 = true := by
  rw [Option.isNone_iff_eq_none, ← QualifiedName.parent?_eq_none_iff, lacksParent_iff, ← h.names]
  constructor
  · intro hnone
    cases hname : QualifiedName.parent? e.1 with
    | none => exact .inl rfl
    | some p => exact .inr ⟨p, rfl, fun hmem => h.patient.parent?_ne_none he hname hmem hnone⟩
  · rintro (hbare | ⟨p, hname, hmem⟩)
    · exact h.sound.parent?_eq_none he hbare
    · refine Option.eq_none_iff_forall_ne_some.2 fun q hq => hmem ?_
      obtain ⟨p', hname', hp'⟩ := h.sound.edges e he q hq
      rw [hname] at hname'
      cases hname'
      exact List.mem_map_of_mem hp'

/-- **The roots are the names without a dot**, in the order of the entries. -/
theorem roots_eq : b.roots.map (·.1) = (entries.map (·.1)).filter fun k => !QualifiedName.isQualified k := by
  rw [← h.names, List.filter_map, roots, unattached, List.filter_filter]
  refine congrArg _ (List.filter_congr fun e he => ?_)
  cases hq : QualifiedName.isQualified e.1 with
  | true => simp [hq]
  | false => simp [hq, (h.parent?_isNone e he).2 (.inl hq)]

/-- **The orphans are the names whose parent is no entry.** -/
theorem orphans_eq : b.orphans.map (·.1) = (entries.map (·.1)).filter (lacksParent (entries.map (·.1))) := by
  rw [← h.names, List.filter_map, orphans, unattached, List.filter_filter, h.names]
  refine congrArg _ (List.filter_congr fun e he => ?_)
  have hiff := h.parent?_isNone e he
  have hqual : lacksParent (entries.map (·.1)) e.1 = true → QualifiedName.isQualified e.1 = true := by
    intro hl
    obtain ⟨p, hp, -⟩ := lacksParent_iff.1 hl
    by_contra hq
    rw [QualifiedName.parent?_eq_none_iff.2 (Bool.eq_false_iff.2 hq)] at hp
    cases hp
  rw [Bool.eq_iff_iff, Bool.and_eq_true, hiff, Function.comp_apply]
  constructor
  · rintro ⟨hq, hbare | hl⟩
    · rw [hq] at hbare
      cases hbare
    · exact hl
  · exact fun hl => ⟨hqual hl, .inr hl⟩

end Entered
/-! ## The finished tree -/

theorem Sound.segments_of_route (h : b.Sound) {q : List String} {p : Nat} (hp : (name, p) ∈ b.placed)
    (hq : b.forest.Route p q x) (hx : (fqn, x) ∈ b.placed) :
    QualifiedName.segments fqn = QualifiedName.segments name ++ q := by
  induction hq generalizing fqn with
  | here => rw [h.name_unique hx hp, List.append_nil]
  | down _ hc ih =>
    obtain ⟨mid, hmid, hmem⟩ := h.edges _ hx _ hc
    rw [QualifiedName.segments_of_parent? hmid, ih hmem, h.named _ hx, List.append_assoc]

theorem Sound.fqn_of_route (h : b.Sound) {q : List String} (hroot : (name, root) ∈ b.placed)
    (hbare : QualifiedName.parent? name = none) (hq : b.forest.Route root q x) (hx : (fqn, x) ∈ b.placed) :
    b.forest.fqn x = fqn := by
  have hr := QualifiedName.segments_of_not_isQualified (QualifiedName.parent?_eq_none_iff.1 hbare)
  have hname : (b.forest.node root).name = name := by
    rw [h.named _ hroot, QualifiedName.last, hr]
    rfl
  have hsegments := h.segments_of_route hroot hq hx
  rw [hr] at hsegments
  rw [Forest.fqn_of_route h.linked (h.parent?_eq_none hroot hbare) hq, hname,
    ← QualifiedName.ofSegments_segments fqn, hsegments]
  rfl

/-- **A tree that holds exactly the beginnings of some names**: the named nodes with their payloads, the others as
placeholders. -/
structure IsClosure (entries : List (String × Payload)) (t : Tree) : Prop where
  wellFormed : t.WellFormed
  names_nodup : (t.preorder.map t.fqn).Nodup
  names : ∀ f, f ∈ t.preorder.map t.fqn ↔ ∃ d ∈ entries, QualifiedName.segments f <+: QualifiedName.segments d.1
  declared : ∀ x ∈ t.preorder, ∀ d ∈ entries, t.fqn x = d.1 → (t.node x).content = ⟨d.2, false⟩
  others : ∀ x ∈ t.preorder, t.fqn x ∉ entries.map (·.1) → (t.node x).content = ⟨.placeholder, true⟩

/-- **Where every node with a dot in its name is attached**, all beginnings of its name are placed. -/
theorem Sound.exists_ancestor {r : String} (h : b.Sound)
    (hattached : ∀ e ∈ b.placed, QualifiedName.parent? e.1 ≠ none → QualifiedName.first e.1 = r →
      b.forest.parent? e.2 ≠ none)
    (he : (fqn, id) ∈ b.placed) (hfirst : QualifiedName.first fqn = r) (hmem : name ∈ QualifiedName.ancestors fqn) :
    ∃ p, (name, p) ∈ b.placed := by
  induction fqn using QualifiedName.parent_induction generalizing id with
  | _ fqn ih =>
    cases hp : QualifiedName.parent? fqn with
    | none =>
      rw [QualifiedName.ancestors_of_parent?_eq_none hp] at hmem
      cases hmem
    | some mid =>
      obtain ⟨p, hpar⟩ := Option.ne_none_iff_exists'.1 (hattached _ he (by simp [hp]) hfirst)
      obtain ⟨mid', hmid, hplaced⟩ := h.edges _ he p hpar
      obtain rfl : mid = mid' := Option.some.inj (hp.symm.trans hmid)
      rw [QualifiedName.ancestors_of_parent? hp] at hmem
      rcases List.mem_cons.1 hmem with rfl | hmem
      · exact ⟨p, hplaced⟩
      · exact ih mid hp hplaced (by rw [← QualifiedName.first_of_parent? hp, hfirst]) hmem

namespace Connecting

variable {r : String}

/-- **The tree of a builder whose orphans are connected** has the builder's nodes, under the builder's names. -/
theorem mem_preorder_iff (h : Connecting r root [] b) (hall : ∀ e ∈ b.placed, QualifiedName.first e.1 = r) :
    x ∈ Tree.preorder { b.forest with root } ↔ x < b.forest.count := by
  rw [Tree.mem_preorder h.sound.linked]
  constructor
  · rintro ⟨q, hq⟩
    exact hq.lt_count (h.sound.lt_count h.root_placed)
  · intro hx
    obtain ⟨fqn, he⟩ := h.sound.exists_placed hx
    exact h.below_root he (hall _ he) (by simp)

theorem fqn_eq (h : Connecting r root [] b) (hfirst : QualifiedName.first fqn = r) (he : (fqn, x) ∈ b.placed) :
    b.forest.fqn x = fqn := by
  obtain ⟨q, hq⟩ := h.below_root he hfirst (by simp)
  exact h.sound.fqn_of_route h.root_placed h.root_bare hq he

/-- **A connected builder makes a closure** of the entries whose beginnings it holds. -/
theorem isClosure (h : Connecting r root [] b) (hall : ∀ e ∈ b.placed, QualifiedName.first e.1 = r)
    (hdeclared : ∀ d ∈ entries, ∃ id, (d.1, id) ∈ b.placed ∧ (b.forest.node id).content = ⟨d.2, false⟩)
    (hothers : ∀ e ∈ b.placed, e.1 ∉ entries.map (·.1) → (b.forest.node e.2).content = ⟨.placeholder, true⟩)
    (hnamed : ∀ e ∈ b.placed, ∃ d ∈ entries, QualifiedName.segments e.1 <+: QualifiedName.segments d.1) :
    IsClosure entries { b.forest with root } := by
  have hfqn {fqn : String} {x : Nat} (he : (fqn, x) ∈ b.placed) : b.forest.fqn x = fqn := h.fqn_eq (hall _ he) he
  have hplaced {x : Nat} (hx : x ∈ Tree.preorder { b.forest with root }) : (b.forest.fqn x, x) ∈ b.placed := by
    obtain ⟨fqn, he⟩ := h.sound.exists_placed ((h.mem_preorder_iff hall).1 hx)
    rwa [hfqn he]
  refine ⟨(wellFormed_of_placed h.sound h.root_placed h.root_bare).1, ?_, fun f => ?_, fun x hx d hd hxd => ?_,
    fun x hx hno => hothers _ (hplaced hx) hno⟩
  · refine (h.sound.linked.nodup_subtree h.sound.children_nodup).map_on fun x hx y hy hxy => ?_
    have hx := hplaced hx
    rw [hxy] at hx
    exact h.sound.id_unique hx (hplaced hy)
  · constructor
    · intro hf
      obtain ⟨x, hx, rfl⟩ := List.mem_map.1 hf
      exact hnamed (b.forest.fqn x, x) (hplaced hx)
    · rintro ⟨d, hd, hpre⟩
      obtain ⟨id, he, -⟩ := hdeclared d hd
      obtain ⟨x, hx⟩ : ∃ x, (f, x) ∈ b.placed := by
        by_cases heq : f = d.1
        · exact ⟨id, heq ▸ he⟩
        · exact h.sound.exists_ancestor (fun e he hbare hr => (h.attached e he hbare hr).resolve_right (by simp))
            he (hall _ he) (QualifiedName.mem_ancestors_iff.2 ⟨hpre, heq⟩)
      exact List.mem_map.2 ⟨x, (h.mem_preorder_iff hall).2 (h.sound.lt_count hx), hfqn hx⟩
  · obtain ⟨id, he, hcontent⟩ := hdeclared d hd
    have hx := hplaced hx
    rw [show b.forest.fqn x = d.1 from hxd] at hx
    obtain rfl := h.sound.id_unique hx he
    exact hcontent

end Connecting

theorem Entered.isClosure {b₀ : Builder} {r : String} {L : List (String × NodeId)} (h₀ : Entered entries b₀)
    (hL : ∀ o ∈ L, o.1 ∈ entries.map (·.1)) (hfirst : ∀ k ∈ entries.map (·.1), QualifiedName.first k = r)
    (h : Connecting r root [] b) (hext : Extends b₀ b)
    (hfresh : ∀ e ∈ b.placed, e ∈ b₀.placed ∨ (b.forest.node e.2).content = ⟨.placeholder, true⟩ ∧
      ∃ o ∈ L, QualifiedName.first o.1 = r ∧ e.1 ∈ QualifiedName.ancestors o.1) :
    IsClosure entries { b.forest with root } := by
  have hold : ∀ e ∈ b₀.placed, e.1 ∈ entries.map (·.1) := fun e he => h₀.names ▸ List.mem_map_of_mem he
  refine h.isClosure (fun e he => ?_) (fun d hd => ?_) (fun e he hno => ?_) fun e he => ?_
  · rcases hfresh e he with he | ⟨-, o, ho, hr, hmem⟩
    · exact hfirst _ (hold e he)
    · rw [QualifiedName.first_of_mem_ancestors hmem, hr]
  · obtain ⟨id, he, hcontent⟩ := h₀.content d hd
    exact ⟨id, hext.mem he, (hext.content _ he).trans hcontent⟩
  · rcases hfresh e he with he | ⟨hcontent, -⟩
    · exact absurd (hold e he) hno
    · exact hcontent
  · rcases hfresh e he with he | ⟨-, o, ho, -, hmem⟩
    · obtain ⟨d, hd, heq⟩ := List.mem_map.1 (hold e he)
      exact ⟨d, hd, heq ▸ List.prefix_refl _⟩
    · obtain ⟨d, hd, heq⟩ := List.mem_map.1 (hL o ho)
      exact ⟨d, hd, heq ▸ (QualifiedName.mem_ancestors_iff.1 hmem).1⟩

/-! ## The outcome -/

theorem keys_eq (hread : List.Forall₂ (ReadsAs r) data entries) :
    data.map (·.1) = entries.map fun d => .string d.1 := by
  induction hread with
  | nil => rfl
  | cons hed _ ih => rw [List.map_cons, List.map_cons, ih, hed.1]

theorem nodup_names_of_distinct (hread : List.Forall₂ (ReadsAs r) data entries) (h : data.Distinct) :
    (entries.map (·.1)).Nodup := by
  have hkeys : (data.map (·.1)).Pairwise fun a b => a.same b = false := List.pairwise_map.2 h
  rw [keys_eq hread, List.pairwise_map] at hkeys
  refine List.pairwise_map.2 (hkeys.imp fun hne heq => ?_)
  rw [heq, (Value.same_string_iff _ _).2 rfl] at hne
  cases hne

theorem finish_noRoots (h : b.roots = []) : b.finish mode = .error .noRoots := by
  rw [roots] at h
  rw [finish]
  simp only [h]
  rfl

theorem finish_multipleRoots {e e' : String × NodeId} {l : List (String × NodeId)} (h : b.roots = e :: e' :: l) :
    b.finish mode = .error (.multipleRoots ((e :: e' :: l).map (·.1))) := by
  rw [roots] at h
  rw [finish]
  simp only [h]
  rfl

theorem exists_root_of_finish {o : BuildOutcome} (h : b.finish mode = .ok o) : ∃ e, b.roots = [e] := by
  cases hroots : b.roots with
  | nil =>
    rw [finish_noRoots hroots] at h
    cases h
  | cons e l =>
    cases l with
    | nil => exact ⟨e, rfl⟩
    | cons e' l =>
      rw [finish_multipleRoots hroots] at h
      cases h

theorem finish_connect (h : b.roots = [(name, root)]) : b.finish .connect =
    let done := b.connectOrphans root (byDepth b.orphans)
    if done.2 = [] then .ok ⟨{ done.1.forest with root }, []⟩ else .error (.unresolvedOrphans done.2) := by
  rw [roots] at h
  rw [finish, orphans]
  simp only [h]
  generalize b.connectOrphans root _ = done
  obtain ⟨b', un⟩ := done
  cases un <;> rfl

theorem finish_strict (h : b.roots = [(name, root)]) :
    b.finish .strict = .ok ⟨(Tree.prune { b.forest with root }).1, b.orphans⟩ := by
  rw [roots] at h
  rw [finish, orphans]
  simp only [h]
  rfl

theorem finish_overlay (h : b.roots = [(name, root)]) :
    b.finish .overlay = .ok ⟨{ b.forest with root }, b.orphans⟩ := by
  rw [roots] at h
  rw [finish, orphans]
  simp only [h]
  rfl

/-- An entry that begins with another name has an orphan among its ancestors, or is one. -/
theorem exists_orphan {names : List String} (hbare : (names.filter fun k => !QualifiedName.isQualified k) = [name])
    (hmem : fqn ∈ names) (hfirst : QualifiedName.first fqn ≠ name) :
    ∃ k ∈ names, lacksParent names k = true ∧ QualifiedName.first k ≠ name := by
  induction fqn using QualifiedName.parent_induction with
  | _ fqn ih =>
    cases hp : QualifiedName.parent? fqn with
    | none =>
      have hin : fqn ∈ names.filter fun k => !QualifiedName.isQualified k :=
        List.mem_filter.2 ⟨hmem, by simpa using QualifiedName.parent?_eq_none_iff.1 hp⟩
      rw [hbare, List.mem_singleton] at hin
      rw [QualifiedName.first_of_parent?_eq_none hp] at hfirst
      exact absurd hin hfirst
    | some p =>
      by_cases hin : p ∈ names
      · exact ih p hp hin (by rwa [← QualifiedName.first_of_parent? hp])
      · exact ⟨fqn, hmem, lacksParent_iff.2 ⟨p, hp, hin⟩, hfirst⟩

/-- **With one root**, the build gives back the orphans of other roots, or makes the closure. -/
theorem Entered.finish_one (h : Entered entries b)
    (hbare : ((entries.map (·.1)).filter fun k => !QualifiedName.isQualified k) = [name]) :
    ((∃ k ∈ entries.map (·.1), QualifiedName.first k ≠ name) ∧ ∃ l, b.finish .connect = .error (.unresolvedOrphans l) ∧
        l.Perm ((entries.map (·.1)).filter fun k => lacksParent (entries.map (·.1)) k &&
          QualifiedName.first k != name) ∧
        l.Pairwise fun k k' => QualifiedName.depth k ≤ QualifiedName.depth k') ∨
      (∀ k ∈ entries.map (·.1), QualifiedName.first k = name) ∧ ∃ t, b.finish .connect = .ok ⟨t, []⟩ ∧
      IsClosure entries t := by
  obtain ⟨root, hroots⟩ : ∃ root, b.roots = [(name, root)] := by
    have hmap := h.roots_eq
    rw [hbare, List.map_eq_singleton_iff] at hmap
    obtain ⟨⟨_, root⟩, hroots, rfl⟩ := hmap
    exact ⟨root, hroots⟩
  have hstart := connecting_start h.sound (hroots ▸ List.mem_cons_self)
  obtain ⟨hun, hdone, hext, hfresh⟩ := hstart.all
  have hperm := byDepth_perm b.orphans
  have hl : (((byDepth b.orphans).filter fun o => QualifiedName.first o.1 != name).map (·.1)).Perm
      ((entries.map (·.1)).filter fun k => lacksParent (entries.map (·.1)) k && QualifiedName.first k != name) := by
    have hsplit :
        (entries.map (·.1)).filter (fun k => lacksParent (entries.map (·.1)) k && QualifiedName.first k != name) =
        ((entries.map (·.1)).filter (lacksParent (entries.map (·.1)))).filter fun k =>
          QualifiedName.first k != name := by
      rw [List.filter_filter]
      exact List.filter_congr fun k _ => Bool.and_comm _ _
    rw [hsplit, ← h.orphans_eq, List.filter_map]
    exact (hperm.filter _).map _
  rw [finish_connect hroots]
  dsimp only
  rw [hun]
  by_cases hfirst : ∀ k ∈ entries.map (·.1), QualifiedName.first k = name
  · refine .inr ⟨hfirst, _, if_pos ?_, h.isClosure (fun o ho => ?_) hfirst hdone hext hfresh⟩
    · refine List.map_eq_nil_iff.2 (List.filter_eq_nil_iff.2 fun o ho => ?_)
      have hmem := (mem_orphans.1 (hperm.subset ho)).1
      simpa using hfirst o.1 (h.names ▸ List.mem_map_of_mem hmem)
    · exact h.names ▸ List.mem_map_of_mem (mem_unattached.1 (List.mem_of_mem_filter (hperm.subset ho))).1
  · simp only [not_forall] at hfirst
    obtain ⟨k, hk, hne⟩ := hfirst
    refine .inl ⟨⟨k, hk, hne⟩, _, if_neg ?_, hl, ?_⟩
    · obtain ⟨k', hk', hlacks, hne'⟩ := exists_orphan hbare hk hne
      have hin := hl.symm.subset (List.mem_filter.2 ⟨hk', by simp [hlacks, hne']⟩)
      exact List.ne_nil_of_mem hin
    · exact List.pairwise_map.2 (hstart.sorted.sublist List.filter_sublist)

end Builder

open QualifiedName in
/-- **A connecting build makes exactly the closure of its names**: it needs one name without a dot, gives back the
orphans that do not begin with it, and otherwise holds every beginning of every name once. -/
theorem build_connect_exact {r : Registry} {data : Mapping} {entries : List (String × Payload)}
    (hdistinct : data.Distinct) (hread : List.Forall₂ (ReadsAs r) data entries) :
    let names := entries.map (·.1)
    let bare := names.filter fun k => !isQualified k
    ((build r .connect data = .error .noRoots ∨ ∃ l, build r .connect data = .error (.multipleRoots l)) ↔
      bare.length ≠ 1) ∧
    (bare = [] → build r .connect data = .error .noRoots) ∧
    (2 ≤ bare.length → build r .connect data = .error (.multipleRoots bare)) ∧
    ∀ root, bare = [root] →
      ((∃ l, build r .connect data = .error (.unresolvedOrphans l)) ↔ ∃ k ∈ names, first k ≠ root) ∧
      (∀ l, build r .connect data = .error (.unresolvedOrphans l) →
        l.Perm (names.filter fun k => Builder.lacksParent names k && first k != root) ∧
        l.Pairwise fun k k' => depth k ≤ depth k') ∧
      ((∀ k ∈ names, first k = root) → ∃ t, build r .connect data = .ok ⟨t, []⟩ ∧ Builder.IsClosure entries t) := by
  intro names bare
  have hnames := Builder.nodup_names_of_distinct hread hdistinct
  obtain ⟨b, hadd, hb⟩ := Builder.exists_entered (show BuildMode.connect ≠ .overlay by simp) hread hnames
  have hbare : b.roots.map (·.1) = bare := hb.roots_eq
  rw [Builder.build_of_addAll hadd]
  cases hroots : b.roots with
  | nil =>
    rw [hroots] at hbare
    rw [Builder.finish_noRoots hroots, ← hbare]
    simp
  | cons e l =>
    cases l with
    | cons e' l =>
      rw [hroots] at hbare
      rw [Builder.finish_multipleRoots hroots, ← hbare]
      simp
    | nil =>
      have hone : bare = [e.1] := by
        rw [← hbare, hroots]
        rfl
      rw [hone]
      refine ⟨?_, by simp, by simp, fun root hroot => ?_⟩
      · refine iff_of_false ?_ (by simp)
        rcases hb.finish_one hone with ⟨-, l, hfin, -⟩ | ⟨-, t, hfin, -⟩
        all_goals simp [hfin]
      · obtain rfl : e.1 = root := by simpa using hroot
        rcases hb.finish_one hone with ⟨hother, l, hfin, hperm, hsorted⟩ | ⟨hall, t, hfin, hclosure⟩
        · rw [hfin]
          refine ⟨iff_of_true ⟨l, rfl⟩ hother, fun l' hl' => ?_, fun hall => ?_⟩
          · cases hl'
            exact ⟨hperm, hsorted⟩
          · obtain ⟨k, hk, hne⟩ := hother
            exact absurd (hall k hk) hne
        · rw [hfin]
          refine ⟨iff_of_false (by simp) ?_, by simp, fun _ => ⟨t, rfl, hclosure⟩⟩
          rintro ⟨k, hk, hne⟩
          exact hne (hall k hk)

def branchEntry (description : String) : Value :=
  .mapping [(.string "type", .string "branch"), (.string "description", .string description)]

/-- A door whose cabin has no entry is built first, and the vehicle it belongs to afterwards. -/
theorem build_connect_door : ∃ t,
    build {} .connect [(.string "Vehicle.Cabin.Door", branchEntry "a door"),
      (.string "Vehicle", branchEntry "a vehicle")] = .ok ⟨t, []⟩ ∧
      Builder.IsClosure [("Vehicle.Cabin.Door", .branch "a door"), ("Vehicle", .branch "a vehicle")] t :=
  ((build_connect_exact (by simp [Mapping.Distinct, Value.same]) (.cons ⟨rfl, rfl⟩ (.cons ⟨rfl, rfl⟩ .nil))).2.2.2
    "Vehicle" (by decide)).2.2 (by decide)

end SignalCatalog
