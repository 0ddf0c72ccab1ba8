import SignalCatalog.Proofs.Build.Connect
import SignalCatalog.Proofs.Expand.Addressable
import SignalCatalog.Proofs.Expand.Alike
/-!
# The order of entries

Entries in another order give a tree that looks alike, and its expansion looks alike: a connecting build and an
expansion after it say the same, whatever the order in which the entries come.
-/
namespace SignalCatalog

namespace Tree

variable {t t' : Tree}

theorem SelfFound.rootName_eq (h : t.SelfFound) (ht : t.Rooted) (h' : t'.SelfFound) (ht' : t'.Rooted)
    (hd : t'.described = t.described) :
    t'.rootName = t.rootName := by
  have hmem : t.entry t.root ∈ t'.described := hd ▸ ⟨t.root, (mem_preorder ht.linked).2 .refl, rfl⟩
  obtain ⟨x, hx, heq⟩ := hmem
  obtain ⟨q, hq⟩ := (mem_preorder ht'.linked).1 hx
  have hname : t.fqn t.root = t'.fqn x := congrArg Prod.fst heq
  have hsegments := h.segments_fqn ht .here
  rw [hname, h'.segments_fqn ht' hq] at hsegments
  exact (List.cons.inj hsegments).1

end Tree

namespace Builder

variable {b b' : Builder} {r : Registry} {data data' : Mapping}
  {entries entries' : List (String × Payload)} {mode : BuildMode} {t t' : Tree} {o : BuildOutcome}
  {name : String} {root : NodeId}

theorem exists_readsAs (hkeys : ∀ e ∈ data, ∃ name, e.1 = .string name) (h : addAll r mode b data = .ok b') :
    ∃ entries, List.Forall₂ (ReadsAs r) data entries := by
  induction data generalizing b with
  | nil => exact ⟨[], .nil⟩
  | cons e data ih =>
    obtain ⟨key, value⟩ := e
    obtain ⟨⟨name, rfl⟩, hrest⟩ := List.forall_mem_cons.1 hkeys
    rw [addAll, show (Value.string name).asString? = some name from rfl] at h
    dsimp only at h
    cases hread : Payload.read r value with
    | error cause =>
      rw [hread] at h
      cases h
    | ok p =>
      rw [hread] at h
      obtain ⟨entries, hentries⟩ := ih hrest h
      exact ⟨(name, p) :: entries, .cons ⟨rfl, hread⟩ hentries⟩

/-- **Closures of the same entries say the same.** -/
theorem IsClosure.described_subset (h : IsClosure entries t) (h' : IsClosure entries' t')
    (hperm : entries'.Perm entries) :
    t.described ⊆ t'.described := by
  rintro _ ⟨x, hx, rfl⟩
  obtain ⟨d, hd, hpre⟩ := (h.names _).1 (List.mem_map_of_mem hx)
  obtain ⟨y, hy, hname⟩ := List.mem_map.1 ((h'.names _).2 ⟨d, hperm.mem_iff.2 hd, hpre⟩)
  refine ⟨y, hy, ?_⟩
  rw [hname]
  by_cases hmem : t.fqn x ∈ entries.map (·.1)
  · obtain ⟨d, hd, hfqn⟩ := List.mem_map.1 hmem
    rw [h.declared x hx d hd hfqn.symm, h'.declared y hy d (hperm.mem_iff.2 hd) (hname.trans hfqn.symm)]
  · rw [h.others x hx hmem, h'.others y hy (by rwa [hname, (hperm.map _).mem_iff])]

/-- **A connecting build succeeds** just when one name has no dot and all others begin with it, and gives the closure of
its entries. -/
theorem build_connect_ok (hread : List.Forall₂ (ReadsAs r) data entries) (hnames : (entries.map (·.1)).Nodup)
    (h : build r .connect data = .ok o) :
    (∃ name, ((entries.map (·.1)).filter fun k => !QualifiedName.isQualified k) = [name] ∧
      ∀ k ∈ entries.map (·.1), QualifiedName.first k = name) ∧ IsClosure entries o.tree := by
  obtain ⟨b, hadd, hb⟩ := exists_entered (show BuildMode.connect ≠ .overlay by simp) hread hnames
  rw [build_of_addAll hadd] at h
  obtain ⟨e, he⟩ := exists_root_of_finish h
  have hroots := hb.roots_eq
  rw [he] at hroots
  rcases hb.finish_one hroots.symm with ⟨-, l, hfin, -⟩ | ⟨hall, t, hfin, hclosure⟩
  · rw [hfin] at h
    cases h
  · rw [hfin] at h
    cases h
    exact ⟨⟨e.1, hroots.symm, hall⟩, hclosure⟩

theorem exists_build_connect (hread : List.Forall₂ (ReadsAs r) data entries) (hnames : (entries.map (·.1)).Nodup)
    (hbare : ((entries.map (·.1)).filter fun k => !QualifiedName.isQualified k) = [name])
    (hfirst : ∀ k ∈ entries.map (·.1), QualifiedName.first k = name) : ∃ o, build r .connect data = .ok o := by
  obtain ⟨b, hadd, hb⟩ := exists_entered (show BuildMode.connect ≠ .overlay by simp) hread hnames
  rcases hb.finish_one hbare with ⟨⟨k, hk, hne⟩, -⟩ | ⟨-, t, hfin, -⟩
  · exact absurd (hfirst k hk) hne
  · exact ⟨_, (build_of_addAll hadd).trans hfin⟩

theorem finish_connected (hroot : b.roots = [(name, root)]) (hnone : b.orphans = []) :
    b.finish .connect = .ok ⟨{ b.forest with root }, []⟩ := by
  rw [finish_connect hroot, hnone, byDepth, List.mergeSort_nil]
  rfl

/-- **The order of the entries** is of no account to a connecting build. -/
theorem exists_build_perm (hdistinct : data.Distinct) (hkeys : ∀ e ∈ data, ∃ name, e.1 = .string name)
    (hperm : data'.Perm data) (h : build r .connect data = .ok o) :
    ∃ o', build r .connect data' = .ok o' ∧ o'.tree.described = o.tree.described := by
  obtain ⟨b, hadd, -⟩ := exists_addAll_of_build h
  obtain ⟨entries, hread⟩ := exists_readsAs hkeys hadd
  have hnames := nodup_names_of_distinct hread hdistinct
  obtain ⟨⟨name, hbare, hfirst⟩, hclosure⟩ := build_connect_ok hread hnames h
  -- the same entries are read, in the other order
  obtain ⟨entries', hread', hentries⟩ := List.perm_comp_forall₂ hperm hread
  have hnames' : (entries'.map (·.1)).Nodup := (hentries.map _).nodup_iff.2 hnames
  have hbare' : ((entries'.map (·.1)).filter fun k => !QualifiedName.isQualified k) = [name] :=
    List.perm_singleton.1 (hbare ▸ (hentries.map _).filter _)
  obtain ⟨o', h'⟩ := exists_build_connect hread' hnames' hbare' fun k hk => hfirst k ((hentries.map _).subset hk)
  have hclosure' := (build_connect_ok hread' hnames' h').2
  exact ⟨o', h', (hclosure'.described_subset hclosure hentries.symm).antisymm
    (hclosure.described_subset hclosure' hentries)⟩

end Builder

variable {r : Registry} {data data' : Mapping} {o o' : BuildOutcome} {t : Tree} {stats : ExpansionStats}

theorem selfFound_of_build {mode : BuildMode} (h : build r mode data = .ok o) : o.tree.SelfFound := by
  obtain ⟨ht, hs⟩ := wellFormed_of_build h
  exact ((Tree.addressable_iff ht hs).2 fun x hx => dotFree_of_build h (ht.lt_count hx)).found

/-- **Built trees that say the same look alike.** -/
theorem alike_of_build {mode mode' : BuildMode} (h : build r mode data = .ok o) (h' : build r mode' data' = .ok o')
    (hd : o'.tree.described = o.tree.described) : Tree.Alike o.tree o'.tree := by
  obtain ⟨ht, hs⟩ := wellFormed_of_build h
  obtain ⟨ht', hs'⟩ := wellFormed_of_build h'
  have hfound := selfFound_of_build h
  have hfound' := selfFound_of_build h'
  have hroot := hfound.rootName_eq ht.toRooted hfound' ht'.toRooted hd
  exact Tree.alike_of_contents ht hs ht' hs' hroot
    ((hfound.described_eq_iff ht.toRooted hfound' ht'.toRooted hroot).1 hd)

/-- **The order of the entries is of no account** to a connecting build and the expansion after it: they succeed in
every order if they succeed in one, and the trees say the same, but for the order of siblings. -/
theorem expand_build_permuted (hdistinct : data.Distinct) (hkeys : ∀ e ∈ data, ∃ name, e.1 = .string name)
    (hperm : data'.Perm data) (h : build r .connect data = .ok o) (he : o.tree.expand = some (t, .ok stats)) :
    ∃ o' t' stats', build r .connect data' = .ok o' ∧ o'.tree.expand = some (t', .ok stats') ∧
    t'.described = t.described ∧
      Tree.Alike t t' ∧ (t'.preorder.map t'.entry).Perm (t.preorder.map t.entry) := by
  obtain ⟨o', h', hd⟩ := Builder.exists_build_perm hdistinct hkeys hperm h
  obtain ⟨stats', t', he', halike, ht, ht'⟩ := (alike_of_build h h' hd).settle (wellFormed_of_build h).1.orderly
    (wellFormed_of_build h').1.orderly he {}
  exact ⟨o', t', stats', h', he', halike.described_eq ht ht', halike, halike.perm ht ht'⟩

/-- The window and the left door are read before the door they belong to, and the cabin at last. -/
theorem expand_doors_permuted : ∃ o' t' stats', build {} .connect Tree.doorEntries.reverse = .ok o' ∧
    o'.tree.expand = some (t', .ok stats') ∧ t'.described = Tree.doorsDone.described ∧ Tree.Alike Tree.doorsDone t' ∧
      (t'.preorder.map t'.entry).Perm (Tree.doorsDone.preorder.map Tree.doorsDone.entry) := by
  have hbuild : build {} .connect Tree.doorEntries = .ok ⟨Tree.doors, []⟩ :=
    (Builder.build_of_addAll rfl).trans (Builder.finish_connected (show _ = [("Cabin", 0)] from rfl) rfl)
  exact expand_build_permuted (by simp [Tree.doorEntries, Mapping.Distinct, Value.same]) (by simp [Tree.doorEntries])
    (List.reverse_perm _) hbuild Tree.expand_doors

end SignalCatalog
