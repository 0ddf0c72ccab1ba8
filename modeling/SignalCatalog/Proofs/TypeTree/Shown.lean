import SignalCatalog.Proofs.Merge.Kinds
import SignalCatalog.Proofs.Spec.Entries
import SignalCatalog.Proofs.TypeTree.Declared
import SignalCatalog.Proofs.TypeTree.Loaded
import SignalCatalog.Proofs.TypeTree.Registered
/-!
# What a type tree shows

The tree of a type file has a node for every entry that the file keeps.  Files are merged in turn, so the tree of all of
them has the nodes of all entries that count, and their kinds.
-/
namespace SignalCatalog
namespace TypeTree

open Builder (enter Parts)

variable {files : Files} {dirs : List String} {paths : List String} {path : String} {r r' : Registry} {v : Value}
  {p : Payload} {data : Mapping} {sheets : List Mapping} {declared : List (String × Payload)} {name root : String}
  {k : Kind} {o : BuildOutcome} {t tree first : Tree} {sofar : Option Tree} {stats : MergeStats}

/-! ## One file -/

theorem mem_of_declared? (h : declared? data name = some v) : ∃ e ∈ data, e.1.asString? = some name ∧ e.2 = v := by
  induction data with
  | nil => cases h
  | cons e data ih =>
    rw [declared?] at h
    cases hlater : declared? data name with
    | some w =>
      rw [hlater] at h
      cases h
      obtain ⟨e', he', heq⟩ := ih hlater
      exact ⟨e', List.mem_cons_of_mem _ he', heq⟩
    | none =>
      rw [hlater, Option.none_or] at h
      split at h
      · rename_i hname
        cases h
        exact ⟨e, List.mem_cons_self, hname, rfl⟩
      · cases h

theorem exists_read_of_declared? (h : List.Forall₂ (NamedAs r) data declared) (hv : declared? data name = some v) :
    ∃ p, Payload.read r v = .ok p := by
  obtain ⟨e, he, -, rfl⟩ := mem_of_declared? hv
  obtain ⟨d, -, -, hread⟩ := exists_of_mem_left h he
  exact ⟨d.2, hread⟩

theorem mem_settled (h : List.Forall₂ (NamedAs r) data declared) : (name, p) ∈ declared.foldl enter [] ↔
    ∃ v, declared? data name = some v ∧ Payload.read r v = .ok p := by
  rw [mem_foldl_enter h]
  simp

/-- **A file keeps an entry** just when no payload above it, or its own, is marked. -/
theorem kept?_eq_some (h : List.Forall₂ (NamedAs r) data declared) :
    kept? data name = some v ↔ declared? data name = some v ∧
      ∀ e ∈ declared.foldl enter [], e.1 ∈ name :: QualifiedName.ancestors name → QualifiedName.isQualified e.1 = true →
        e.2.common.delete = false := by
  have hmarks :
      ((name :: QualifiedName.ancestors name).any fun n =>
        QualifiedName.isQualified n && (declared? data n).any isMarked) = false ↔
      ∀ e ∈ declared.foldl enter [], e.1 ∈ name :: QualifiedName.ancestors name → QualifiedName.isQualified e.1 = true →
        e.2.common.delete = false := by
    rw [List.any_eq_false]
    constructor
    · intro hnone e he hn hq
      obtain ⟨w, hw, hread⟩ := (mem_settled h).1 he
      have hunmarked := hnone e.1 hn
      rw [hq, hw, Bool.true_and, Option.any_some, Bool.not_eq_true] at hunmarked
      exact (kind_and_mark_of_read hread).2.symm.trans hunmarked
    · intro hall n hn hmarked
      rw [Bool.and_eq_true, Option.any_eq_true] at hmarked
      obtain ⟨hq, w, hw, hmark⟩ := hmarked
      obtain ⟨p, hread⟩ := exists_read_of_declared? h hw
      have hdelete := hall (n, p) ((mem_settled h).2 ⟨w, hw, hread⟩) hn hq
      rw [← (kind_and_mark_of_read hread).2, hmark] at hdelete
      cases hdelete
  rw [kept?, ← hmarks]
  split
  · rename_i hmarked
    simp [hmarked]
  · rename_i hmarked
    simp [Bool.eq_false_iff.2 hmarked]

/-- **The nodes of a file's tree** are the entries that it keeps. -/
theorem hasKind_of_parts (h : List.Forall₂ (NamedAs r) data declared) (hparts : Parts (declared.foldl enter []) root o)
    (hwhole : o.orphans = [])
    (hbare : ((declared.foldl enter []).map (·.1)).filter (fun k => !QualifiedName.isQualified k) = [root]) :
    o.tree.HasKind name k ↔ ∃ v, kept? data name = some v ∧ kindOf? v = some k := by
  constructor
  · rintro ⟨x, hx, rfl, rfl⟩
    have he := hparts.getElem?_of_mem hx
    obtain ⟨v, hv, hread⟩ := (mem_settled h).1 (List.mem_of_getElem? he)
    have hunmarked := (hparts.mem_preorder_iff_unmarked hwhole hbare he).1 hx
    exact ⟨v, (kept?_eq_some h).2 ⟨hv, hunmarked⟩, (kind_and_mark_of_read hread).1⟩
  · rintro ⟨v, hv, hkind⟩
    obtain ⟨hv, hunmarked⟩ := (kept?_eq_some h).1 hv
    obtain ⟨p, hread⟩ := exists_read_of_declared? h hv
    obtain ⟨x, he⟩ := List.mem_iff_getElem?.1 ((mem_settled h).2 ⟨v, hv, hread⟩)
    have hx := (hparts.mem_preorder_iff_unmarked hwhole hbare he).2 hunmarked
    obtain ⟨hname, hpayload⟩ := Prod.mk.inj (Option.some.inj ((hparts.getElem?_of_mem hx).symm.trans he))
    rw [(kind_and_mark_of_read hread).1, Option.some_inj] at hkind
    exact ⟨x, hx, hname, (congrArg Payload.kind hpayload).trans hkind⟩

/-! ## Several files -/

/-- **A tree that shows what files declare.** -/
structure Shows (sheets : List Mapping) (t : Tree) : Prop where
  wellFormed : t.WellFormed
  found : t.SelfFound
  own : ∀ x ∈ t.preorder, (t.node x).autogenerated = false
  proper : ∀ x ∈ t.preorder, (t.node x).payload.Proper
  known : ∀ name v, last? sheets name = some v → ∃ k, kindOf? v = some k
  kinds : ∀ name k, t.HasKind name k ↔ ∃ v, last? sheets name = some v ∧ kindOf? v = some k

theorem last?_singleton : last? [data] name = kept? data name := Option.none_or

theorem shows_of_buildFile (hdata : ∀ e ∈ data, e.2.repeatsKey = false) (h : buildFile r data = .ok t) :
    Shows [data] t := by
  obtain ⟨o, hbuild, hwhole, rfl⟩ := exists_of_buildFile h
  obtain ⟨declared, root, hread, hbare, hparts⟩ := parts_of_build_strict hbuild
  have hcontent : ∀ x ∈ o.tree.preorder, ∃ p, (o.tree.node x).content = ⟨p, false⟩ ∧ p.Proper := by
    intro x hx
    have he := hparts.getElem?_of_mem hx
    obtain ⟨v, hv, hpayload⟩ := (mem_settled hread).1 (List.mem_of_getElem? he)
    obtain ⟨e, hmem, -, rfl⟩ := mem_of_declared? hv
    exact ⟨_, (hparts.declared x _ _ he).2, Payload.proper_of_read_value (hdata e hmem) hpayload⟩
  refine ⟨hparts.wellFormed, selfFound_of_build hbuild, fun x hx => ?_, fun x hx => ?_,
    fun name v hv => ?_, fun name k => ?_⟩
  · obtain ⟨p, hp, -⟩ := hcontent x hx
    exact congrArg Content.autogenerated hp
  · obtain ⟨p, hp, hproper⟩ := hcontent x hx
    rwa [show (o.tree.node x).payload = p from congrArg Content.payload hp]
  · rw [last?_singleton, kept?_eq_some hread] at hv
    obtain ⟨p, hp⟩ := exists_read_of_declared? hread hv.1
    exact ⟨p.kind, (kind_and_mark_of_read hp).1⟩
  · rw [last?_singleton]
    exact hasKind_of_parts hread hparts hwhole hbare

theorem Shows.concat (hfirst : Shows sheets first) (htree : Shows [data] tree)
    (hmerge : first.merge r tree = (t, .ok stats)) :
    Shows (sheets ++ [data]) t := by
  have hm := Tree.merged_of_merge ⟨hfirst.wellFormed.toRooted, htree.wellFormed, hfirst.found, htree.found⟩ hmerge
  have hkinds {name : String} {k : Kind} : t.HasKind name k ↔ tree.HasKind name k ∨ (∀ k', ¬tree.HasKind name k') ∧
      first.HasKind name k :=
    hm.hasKind_iff hfirst.wellFormed.toRooted hfirst.found htree.own hfirst.proper htree.proper
  have hcases {x : Nat} :=
    hm.content_cases (x := x) hfirst.wellFormed.toRooted hfirst.found htree.own hfirst.proper htree.proper
  have hkept {name : String} {v : Value} (hv : kept? data name = some v) : ∃ k, kindOf? v = some k :=
    htree.known name v (by rw [last?_singleton, hv])
  refine ⟨⟨hm.rooted, hm.nodup hfirst.wellFormed.children_nodup⟩, hm.selfFound, fun x hx => ?_, fun x hx => ?_,
    fun name v hv => ?_, fun name k => ?_⟩
  · rcases hcases hx with ⟨-, -, -, p, hp, -⟩ | ⟨-, hold, -, hcontent⟩
    · exact congrArg Content.autogenerated hp
    · exact (congrArg Content.autogenerated hcontent).trans (hfirst.own x hold)
  · rcases hcases hx with ⟨-, -, -, p, hp, -, hproper⟩ | ⟨-, hold, -, hcontent⟩
    · rwa [show (t.node x).payload = p from congrArg Content.payload hp]
    · rw [show (t.node x).payload = (first.node x).payload from congrArg Content.payload hcontent]
      exact hfirst.proper x hold
  · rw [last?_concat] at hv
    cases hnow : kept? data name with
    | some w =>
      rw [hnow] at hv
      cases hv
      exact hkept hnow
    | none =>
      rw [hnow, Option.none_or] at hv
      exact hfirst.known name v hv
  · -- a name of which the new file keeps no entry has the kind it had
    rw [hkinds, htree.kinds, hfirst.kinds, last?_singleton, last?_concat]
    simp only [htree.kinds, last?_singleton]
    cases hnow : kept? data name with
    | none => simp
    | some w =>
      obtain ⟨k', hk'⟩ := hkept hnow
      simp [hk']

def Shown (sheets : List Mapping) : Option Tree → Prop
  | none => sheets = []
  | some t => Shows sheets t

/-- **A file as it is loaded**, with its includes. -/
def Loads (files : Files) (dirs : List String) (path : String) (data : Mapping) : Prop :=
  Spec.load files dirs path none = .ok ⟨path, none, data⟩

/-- **One more file** registers its structs and shows its entries. -/
theorem shown_of_loadFile (hr : Registered sheets r) (hshown : Shown sheets sofar)
    (h : loadFile files dirs r sofar path = (r', .ok t)) :
    ∃ data, Loads files dirs path data ∧ Registered (sheets ++ [data]) r' ∧ Shows (sheets ++ [data]) t := by
  obtain ⟨data, tree, hload, hqualified, hregister, htree, hjoin⟩ := exists_of_loadFile h
  have hdata := (Spec.repeatsKeyEntries_iff_keyed.1 (Spec.repeatsKeyEntries_of_load hload)).2
  have hsheet := shows_of_buildFile hdata htree
  refine ⟨data, hload, hr.concat hqualified hregister, ?_⟩
  obtain ⟨rfl, rfl⟩ | ⟨first, stats, rfl, -, hmerge⟩ := join_cases hjoin
  · cases hshown
    exact hsheet
  · exact Shows.concat hshown hsheet hmerge

theorem shown_of_loadFiles {sofar' : Option Tree} (hr : Registered sheets r) (hshown : Shown sheets sofar)
    (h : loadFiles files dirs r sofar paths = (r', .ok sofar')) :
    ∃ more, List.Forall₂ (Loads files dirs) paths more ∧ Registered (sheets ++ more) r' ∧
    Shown (sheets ++ more) sofar' := by
  induction paths generalizing r sofar sheets with
  | nil =>
    cases h
    exact ⟨[], .nil, by rwa [List.append_nil], by rwa [List.append_nil]⟩
  | cons path paths ih =>
    rw [loadFiles] at h
    split at h
    · rename_i r₁ tree hfile
      obtain ⟨data, hdata, hregistered, hshows⟩ := shown_of_loadFile hr hshown hfile
      obtain ⟨more, hmore, hall⟩ := ih hregistered (show Shown _ (some tree) from hshows) h
      refine ⟨data :: more, .cons hdata hmore, ?_⟩
      rwa [List.append_assoc, List.singleton_append] at hall
    · cases h

end TypeTree
end SignalCatalog
