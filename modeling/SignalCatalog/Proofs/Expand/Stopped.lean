import SignalCatalog.Proofs.Expand.Run
/-!
# Expansions that stop midway

An expansion that meets a level without names, or an instance whose place is taken, leaves what it has done so far.  Its
tree is a tree still, and carries nothing that did not come from it.
-/
namespace SignalCatalog
namespace Tree

open Forest (Carries Grown)

variable {t t' u : Tree} {e : ExpansionError} {proto : Payload} {name : String} {names : List String}
  {levels : List (List String)} {n p : Nat} {ids ps : List NodeId} {stats : ExpansionStats}

/-! ## Instances -/

theorem instanceNode_grown {a : Except ExpansionError NodeId} (ht : t.Linked) (hp : p < t.count)
    (hon : (instanceNode proto p name).on t = (a, t')) : Grown p t.toForest t'.toForest ∧ t'.root = t.root := by
  cases a with
  | ok c =>
    have h := instanceNode_instanced ht hp hon
    exact ⟨h.grown, h.same_root⟩
  | error e =>
    rw [instanceNode_on] at hon
    split at hon
    · cases hon
    · split at hon
      · cases hon
      · cases hon
        exact ⟨.refl ht, rfl⟩

theorem instanceRow_grown {a : Except ExpansionError (List NodeId)} (ht : t.Linked) (hp : p < t.count)
    (hon : (instanceRow proto p names).on t = (a, t')) : Grown p t.toForest t'.toForest ∧ t'.root = t.root := by
  induction names generalizing t a with
  | nil =>
    cases hon
    exact ⟨.refl ht, rfl⟩
  | cons name names ih =>
    rcases on_bind_cases hon with ⟨e, hfirst, -⟩ | ⟨c, t₁, hfirst, hon⟩
    · exact instanceNode_grown ht hp hfirst
    obtain ⟨hone, hroot⟩ := instanceNode_grown ht hp hfirst
    have hrest {a : Except ExpansionError (List NodeId)} (hon : (instanceRow proto p names).on t₁ = (a, t')) :
        Grown p t.toForest t'.toForest ∧ t'.root = t.root := by
      obtain ⟨hgrown, hroot'⟩ := ih hone.linked (Nat.lt_of_lt_of_le hp hone.count_le) hon
      exact ⟨hone.trans ht hgrown, hroot'.trans hroot⟩
    rcases on_bind_cases hon with ⟨e, hnames, -⟩ | ⟨rest, t₂, hnames, hon⟩
    · exact hrest hnames
    · cases hon
      exact hrest hnames

theorem instanceLevel_grown {a : Except ExpansionError (List NodeId)} (ht : t.Linked) (hn : n < t.count)
    (hps : ∀ p ∈ ps, t.Below n p) (hon : (instanceLevel proto names ps).on t = (a, t')) :
    Grown n t.toForest t'.toForest ∧ t'.root = t.root := by
  induction ps generalizing t a with
  | nil =>
    cases hon
    exact ⟨.refl ht, rfl⟩
  | cons p ps ih =>
    obtain ⟨hp, hps⟩ := List.forall_mem_cons.1 hps
    rcases on_bind_cases hon with ⟨e, hrow, -⟩ | ⟨row, t₁, hrow, hon⟩
    · obtain ⟨hgrown, hroot⟩ := instanceRow_grown ht (hp.lt_count hn) hrow
      exact ⟨hgrown.mono hp, hroot⟩
    have hmade := (instanceRow_instanced ht (hp.lt_count hn) hrow).mono hp
    have hone := hmade.reorder ht (hmade.grown.below hp) row
    have hrest {a : Except ExpansionError (List NodeId)}
        (hon : (instanceLevel proto names ps).on (t₁.withForest (t₁.reorder p row)) = (a, t')) :
        Grown n t.toForest t'.toForest ∧ t'.root = t.root := by
      obtain ⟨hgrown, hroot⟩ := ih hone.grown.linked (Nat.lt_of_lt_of_le hn hone.grown.count_le)
        (fun p' hp' => hone.grown.below (hps p' hp')) hon
      exact ⟨hone.grown.trans ht hgrown, hroot.trans hone.same_root⟩
    rw [on_change_bind] at hon
    rcases on_bind_cases hon with ⟨e, hlevel, -⟩ | ⟨rest, t₂, hlevel, hon⟩
    · exact hrest hlevel
    · cases hon
      exact hrest hlevel

theorem instanceLevels_grown {a : Except ExpansionError (List NodeId)} (ht : t.Linked) (hn : n < t.count)
    (hps : ∀ p ∈ ps, t.Below n p) (hon : (instanceLevels proto levels ps).on t = (a, t')) :
    Grown n t.toForest t'.toForest ∧ t'.root = t.root := by
  induction levels generalizing t ps with
  | nil =>
    cases hon
    exact ⟨.refl ht, rfl⟩
  | cons names levels ih =>
    rcases on_bind_cases hon with ⟨e, hlevel, -⟩ | ⟨row, t₁, hlevel, hon⟩
    · exact instanceLevel_grown ht hn hps hlevel
    · have hmade := instanceLevel_instanced ht hn hps hlevel
      obtain ⟨hgrown, hroot⟩ := ih hmade.grown.linked (Nat.lt_of_lt_of_le hn hmade.grown.count_le) hmade.below hon
      exact ⟨hmade.grown.trans ht hgrown, hroot.trans hmade.same_root⟩

/-! ## One branch -/

/-- **A tree is left**, be it that the branch was expanded or that something was in the way. -/
theorem expandNode_rooted {a : Except ExpansionError Nat} (ht : t.Rooted) (hn : n < t.count)
    (hon : (expandNode n).on t = (a, t')) :
    t'.Rooted := by
  cases a with
  | ok k => exact (expandNode_done ht.linked hn hon).rooted ht
  | error e =>
    rcases hlevels : levelNames (t.node n).payload with e' | levels
    · rw [expandNode_on_invalid hlevels] at hon
      cases hon
      exact ht
    have hcut := cut_withoutTemplate ht.linked n levels
    have hrest : (t.withoutTemplate n levels).Rooted := ht.cut hcut
    obtain ⟨hgrown, hroot⟩ :=
      instanceLevels_grown (n := n) hrest.linked (by rwa [hcut.count]) (by simp [Forest.Below.refl])
      (made_of_on_error ht.linked hlevels hon)
    exact hrest.grown hgrown hroot

/-! ## The run -/

theorem exists_failed_of_expandPass (h : t.Reaches ids u) (hon : (expandPass stats ids).on u = (.error e, t')) :
    ∃ id rest v, t.Reaches (id :: rest) v ∧ v.isAttached id = true ∧ (expandNode id).on v = (.error e, t') := by
  induction ids generalizing u stats with
  | nil => cases hon
  | cons id ids ih =>
    rw [expandPass, on_get_bind] at hon
    split at hon
    · rename_i hid
      rcases on_bind_cases hon with ⟨e', hone, he⟩ | ⟨created, u₁, hone, hon⟩
      · cases he
        exact ⟨id, ids, u, h, hid, hone⟩
      · exact ih (h.expand hid hone) hon
    · rename_i hid
      exact ih (h.skip (by simpa using hid)) hon

/-- **An expansion that fails does so at a state of its run**, at a branch that was to be expanded. -/
theorem exists_failed_of_settle (h : t.Reaches [] u) (hs : settle stats u = some (t', .error e)) :
    ∃ id rest v, t.Reaches (id :: rest) v ∧ v.isAttached id = true ∧ (expandNode id).on v = (.error e, t') := by
  refine settle.partial_correctness (fun _ u r => t.Reaches [] u → ∀ e t', r = (t', .error e) →
      ∃ id rest v, t.Reaches (id :: rest) v ∧ v.isAttached id = true ∧ (expandNode id).on v = (.error e, t'))
    (fun settle' ih stats u r hr hu e t' heq => ?_) stats u (t', .error e) hs h e t' rfl
  subst heq
  split at hr
  · cases hr
  · split at hr
    · rename_i hpass
      exact ih _ _ _ hr (hu.pass.expandPass hpass) _ _ rfl
    · rename_i hpass
      cases hr
      exact exists_failed_of_expandPass hu.pass hpass

variable {G : Content → Prop} {result : Except ExpansionError ExpansionStats}

/-- **What an expansion leaves, whatever comes of it**: a tree, with the contents of the tree that was expanded, as
declared or with their instances cleared. -/
theorem rooted_of_expand (ht : t.Rooted) (h : t.expand = some (t', result)) : t'.Rooted ∧
    ((∀ {c}, G c → G ⟨c.payload, false⟩) → (∀ {c}, G c → G ⟨c.payload.clearInstances, c.autogenerated⟩) →
      Carries G t.toForest → Carries G t'.toForest) := by
  cases result with
  | ok stats =>
    have hrun := reaches_of_expand h
    exact ⟨hrun.rooted ht, fun hdeclared hclear hcarry => hrun.carries hdeclared hclear ht hcarry⟩
  | error e =>
    obtain ⟨id, rest, v, hrun, hid, hon⟩ := exists_failed_of_settle .start h
    have hv := hrun.rooted ht
    have hlt := ((isAttached_iff hv.linked hv.root_top).1 hid).lt_count hv.root_lt_count
    exact ⟨expandNode_rooted hv hlt hon, fun hdeclared hclear hcarry =>
      expandNode_carries hdeclared hclear (hrun.carries hdeclared hclear ht hcarry) hv.linked hlt hon⟩

end Tree
end SignalCatalog
