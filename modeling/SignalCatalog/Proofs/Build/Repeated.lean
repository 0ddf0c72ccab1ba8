import SignalCatalog.Proofs.Build.Flat
/-!
# Names that come twice

Two keys may be different values and yet name one node, as a key with a tag and the same key without do.  The node keeps
the place of the first and takes the payload of the last, so a build takes in a list of entries in which each name is
once.
-/
namespace SignalCatalog

/-- **An entry that a build can read**, by whatever key its name is written. -/
def NamedAs (r : Registry) (e : Value × Value) (d : String × Payload) : Prop :=
  e.1.asString? = some d.1 ∧ Payload.read r e.2 = .ok d.2

namespace Builder

variable {b b' : Builder} {r : Registry} {mode : BuildMode} {data : Mapping}
  {entries declared : List (String × Payload)} {d e : String × Payload} {fqn name root : String} {pl : Payload}
  {o : BuildOutcome} {x : NodeId}

/-- **One more entry**: a name that is there keeps its place and takes the new payload. -/
def enter (entries : List (String × Payload)) (d : String × Payload) : List (String × Payload) :=
  if d.1 ∈ entries.map (·.1) then entries.map fun e => if e.1 = d.1 then d else e else entries ++ [d]

theorem names_enter_of_mem (h : d.1 ∈ entries.map (·.1)) : (enter entries d).map (·.1) = entries.map (·.1) := by
  rw [enter, if_pos h, List.map_map]
  refine List.map_congr_left fun e _ => ?_
  rw [Function.comp_apply]
  split
  · rename_i heq
    exact heq.symm
  · rfl

theorem mem_enter : e ∈ enter entries d ↔ e = d ∨ e ∈ entries ∧ e.1 ≠ d.1 := by
  rw [enter]
  split
  · rename_i hmem
    rw [List.mem_map]
    constructor
    · rintro ⟨e', he', rfl⟩
      split
      · exact .inl rfl
      · rename_i hne
        exact .inr ⟨he', hne⟩
    · rintro (rfl | ⟨he, hne⟩)
      · obtain ⟨e', he', heq⟩ := List.mem_map.1 hmem
        exact ⟨e', he', if_pos heq⟩
      · exact ⟨e, he, if_neg hne⟩
  · rename_i hmem
    rw [List.mem_append, List.mem_singleton]
    constructor
    · rintro (he | rfl)
      · exact .inr ⟨he, fun heq => hmem (heq ▸ List.mem_map_of_mem he)⟩
      · exact .inl rfl
    · rintro (rfl | ⟨he, -⟩)
      · exact .inr rfl
      · exact .inl he

/-! ## One entry -/

theorem entered_addNew (h : Entered entries b) (hunder : Underway mode b) (hmode : mode ≠ .overlay)
    (hnew : b.find? fqn = none) (pl : Payload) :
    Entered (enter entries (fqn, pl)) (b.addNew mode fqn pl) := by
  obtain ⟨hnext, hext⟩ := underway_addNew hunder hnew pl
  obtain ⟨hpatient, hplaced, hcontent⟩ := addNew_patient hunder h.patient hmode hnew pl
  have hfresh : fqn ∉ entries.map (·.1) := h.names ▸ find?_eq_none.1 hnew
  refine ⟨hnext.sound, hpatient, ?_, fun d hd => ?_⟩
  · rw [hplaced, enter, if_neg hfresh, List.map_append, List.map_append, h.names]
    rfl
  · rcases mem_enter.1 hd with rfl | ⟨hd, -⟩
    · refine ⟨b.forest.count, ?_, hcontent⟩
      rw [hplaced]
      exact List.mem_append_right _ List.mem_cons_self
    · obtain ⟨id, hid, hcontent⟩ := h.content d hd
      exact ⟨id, hext.mem hid, (hext.content _ hid).trans hcontent⟩

theorem entered_declare {id : NodeId} (h : Entered entries b) (hid : (fqn, id) ∈ b.placed) (pl : Payload) :
    Entered (enter entries (fqn, pl)) { b with forest := b.forest.modify id fun n => n.declare pl } := by
  have hshape := Forest.sameShape_declare (a := id) (f := b.forest) pl
  refine ⟨h.sound.declare id pl,
    ⟨fun e he name hname hnone => h.patient.complete e he name hname ((hshape.parent? e.2).symm.trans hnone),
      h.patient.absent⟩, ?_, fun d hd => ?_⟩
  · exact h.names.trans (names_enter_of_mem (h.names ▸ List.mem_map_of_mem hid)).symm
  · rcases mem_enter.1 hd with rfl | ⟨hd, hne⟩
    · exact ⟨id, hid, congrArg Node.content (Forest.node_modify_self _ (h.sound.lt_count hid))⟩
    · obtain ⟨id', hid', hcontent⟩ := h.content d hd
      refine ⟨id', hid', (congrArg Node.content (Forest.node_modify_ne _ ?_)).trans hcontent⟩
      rintro rfl
      exact hne (h.sound.name_unique hid' hid)

theorem entered_add (h : Entered entries b) (hunder : Underway mode b) (hmode : mode ≠ .overlay)
    (fqn : String) (pl : Payload) :
    Entered (enter entries (fqn, pl)) (b.add mode fqn pl) := by
  rw [add]
  split
  · rename_i id hid
    exact entered_declare h (h.sound.find?_eq_some.1 hid) pl
  · rename_i hnew
    exact entered_addNew h hunder hmode hnew pl

/-! ## All entries -/

theorem entered_nil : Entered [] {} := ⟨(underway_nil .strict).sound, ⟨by simp, by simp⟩, rfl, by simp⟩

theorem exists_entered_of_addAll (h : Entered entries b) (hunder : Underway mode b) (hmode : mode ≠ .overlay)
    (hadd : addAll r mode b data = .ok b') : ∃ declared, List.Forall₂ (NamedAs r) data declared ∧
    Entered (declared.foldl enter entries) b' := by
  induction data generalizing b entries with
  | nil =>
    cases hadd
    exact ⟨[], .nil, h⟩
  | cons e data ih =>
    obtain ⟨key, value⟩ := e
    rw [addAll] at hadd
    split at hadd
    · cases hadd
    · rename_i fqn hkey
      split at hadd
      · cases hadd
      · rename_i pl hpl
        obtain ⟨declared, hread, hentered⟩ := ih (entered_add h hunder hmode fqn pl) (underway_add hunder fqn pl) hadd
        exact ⟨(fqn, pl) :: declared, .cons ⟨hkey, hpl⟩ hread, hentered⟩

/-! ## Builds without orphans -/

namespace Parts

variable {k n p : String} (h : Parts entries root o) (hwhole : o.orphans = [])
include h hwhole

theorem parent_mem (hk : k ∈ entries.map (·.1)) (hp : QualifiedName.parent? k = some p) : p ∈ entries.map (·.1) := by
  have hnone := h.orphans
  rw [hwhole, List.map_nil, eq_comm, List.filter_eq_nil_iff] at hnone
  by_contra hmem
  exact hnone k hk (lacksParent_iff.2 ⟨p, hp, hmem⟩)

/-- Where no parent is missing, a name climbs to all its ancestors. -/
theorem climbs_iff (hk : k ∈ entries.map (·.1)) :
    Climbs (entries.map (·.1)) k n ↔ n ∈ k :: QualifiedName.ancestors k := by
  constructor
  · intro hup
    clear hk
    induction hup with
    | here => exact List.mem_cons_self
    | up hp _ _ ih =>
      rw [QualifiedName.ancestors_of_parent? hp]
      exact List.mem_cons_of_mem _ ih
  · intro hn
    induction k using QualifiedName.parent_induction with
    | _ k ih =>
      rcases List.mem_cons.1 hn with rfl | hn
      · exact .here
      · cases hp : QualifiedName.parent? k with
        | none =>
          rw [QualifiedName.ancestors_of_parent?_eq_none hp] at hn
          cases hn
        | some p =>
          rw [QualifiedName.ancestors_of_parent? hp] at hn
          have hmem := h.parent_mem hwhole hk hp
          exact .up hp hmem (ih p hp hmem hn)

/-- **The tree has every name** but for those that are marked for removal, or below such a name. -/
theorem mem_preorder_iff_unmarked (hbare : (entries.map (·.1)).filter (fun k => !QualifiedName.isQualified k) = [root])
    (hx : entries[x]? = some d) :
    x ∈ o.tree.preorder ↔
      ∀ e ∈ entries, e.1 ∈ d.1 :: QualifiedName.ancestors d.1 → QualifiedName.isQualified e.1 = true →
      e.2.common.delete = false := by
  have hd : d.1 ∈ entries.map (·.1) := List.mem_map_of_mem (List.mem_of_getElem? hx)
  have hclimbs {n : String} : Climbs (entries.map (·.1)) d.1 n ↔ n ∈ d.1 :: QualifiedName.ancestors d.1 :=
    h.climbs_iff hwhole hd
  obtain ⟨t, orphans⟩ := o
  obtain rfl : orphans = [] := hwhole
  rw [h.mem_preorder_iff hbare hx]
  exact ⟨fun hs e he hn hq => hs e he hq (hclimbs.2 hn), fun hs e he hq hup => hs e he (hclimbs.1 hup) hq⟩

end Parts

end Builder

open Builder

variable {r : Registry} {data : Mapping} {o : BuildOutcome}

/-- **A strict build parts what it was given last under each name**, below the one name without a dot. -/
theorem parts_of_build_strict (h : build r .strict data = .ok o) :
    ∃ declared root, List.Forall₂ (NamedAs r) data declared ∧
    ((declared.foldl enter []).map (·.1)).filter (fun k => !QualifiedName.isQualified k) = [root] ∧
    Parts (declared.foldl enter []) root o := by
  obtain ⟨b, hadd, hfinish⟩ := exists_addAll_of_build h
  have hmode : BuildMode.strict ≠ .overlay := by simp
  obtain ⟨declared, hread, hentered⟩ := exists_entered_of_addAll entered_nil (underway_nil .strict) hmode hadd
  obtain ⟨root, rootId, hroots⟩ : ∃ root rootId, b.roots = [(root, rootId)] := by
    rw [finish] at hfinish
    split at hfinish
    · cases hfinish
    · rename_i root rootId hroots
      exact ⟨root, rootId, hroots⟩
    · cases hfinish
  have hbare := hentered.roots_eq
  rw [hroots] at hbare
  rw [finish_strict hroots] at hfinish
  cases hfinish
  exact ⟨declared, root, hread, hbare.symm, hentered.parts hroots (ordered_addAll hmode hadd)⟩

end SignalCatalog
