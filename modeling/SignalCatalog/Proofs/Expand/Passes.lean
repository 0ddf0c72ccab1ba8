import SignalCatalog.Proofs.Expand.Branch
/-!
# Passes go deeper

What expansions do to a tree about which nothing is known but that its links agree: siblings may share a name, and so
may the instances of a level.  Whatever is pending after a number of passes lies at least as deep, so an expansion goes
on without end only if the tree grows without bound.
-/
namespace SignalCatalog
namespace Tree

variable {t t' u : Tree} {n p x k d : Nat} {proto : Payload} {name : String} {names : List String}
  {levels : List (List String)} {ids ps : List NodeId} {q : List String} {stats stats' : ExpansionStats} {c : Nat}

/-! ## Instances -/

structure Instanced (n : Nat) (t t' : Tree) (ids : List NodeId) : Prop where
  grown : Forest.Grown n t.toForest t'.toForest
  same_root : t'.root = t.root
  below : ∀ x ∈ ids, t'.Below n x

namespace Instanced

variable {t₁ t₂ : Tree} {ids₁ ids₂ : List NodeId}

theorem mono (h : Instanced p t t' ids) (hp : t.Below n p) : Instanced n t t' ids where
  grown := h.grown.mono hp
  same_root := h.same_root
  below := fun x hx => (h.grown.below hp).trans (h.below x hx)

theorem trans (h : Instanced n t t₁ ids₁) (ht : t.Linked) (h' : Instanced n t₁ t₂ ids₂) :
    Instanced n t t₂ (ids₁ ++ ids₂) where
  grown := h.grown.trans ht h'.grown
  same_root := h'.same_root.trans h.same_root
  below := fun x hx => (List.mem_append.1 hx).elim (fun hx => h'.grown.below (h.below x hx)) (h'.below x)

theorem reorder (h : Instanced n t t' ids) (ht : t.Linked) (hp : t'.Below n p) (first : List NodeId) :
    Instanced n t (t'.withForest (t'.reorder p first)) ids where
  grown := h.grown.trans ht (((Forest.sameShape_reorder first).grown h.grown.linked).mono hp)
  same_root := h.same_root
  below := fun x hx => (Forest.sameShape_reorder first).below_iff.2 (h.below x hx)

end Instanced

theorem instanceNode_instanced (ht : t.Linked) (hp : p < t.count)
    (hon : (instanceNode proto p name).on t = (.ok c, t')) :
    Instanced p t t' [c] := by
  rw [instanceNode_on] at hon
  split at hon
  · cases hon
    refine ⟨Forest.grown_addChild ht hp rfl rfl, rfl, fun x hx => ?_⟩
    rw [List.mem_singleton.1 hx]
    exact ⟨_, Forest.route_addChild (n := { name, payload := proto }) hp rfl rfl⟩
  · rename_i c' hc'
    split at hon
    · cases hon
      have hparent := (ht.mem_childNamed? hc').1
      have hgrown := Forest.grown_declareIf (e := c) ht proto
      refine Instanced.mono ⟨hgrown, rfl, fun x hx => ?_⟩ (Forest.Below.refl.down hparent)
      rw [List.mem_singleton.1 hx]
      exact .refl
    · cases hon

theorem instanceRow_instanced (ht : t.Linked) (hp : p < t.count)
    (hon : (instanceRow proto p names).on t = (.ok ids, t')) :
    Instanced p t t' ids := by
  induction names generalizing t ids with
  | nil =>
    cases hon
    exact ⟨.refl ht, rfl, by simp⟩
  | cons name names ih =>
    obtain ⟨c, t₁, hfirst, hon⟩ := on_bind_eq_ok hon
    obtain ⟨rest, t₂, hrest, hon⟩ := on_bind_eq_ok hon
    cases hon
    have h := instanceNode_instanced ht hp hfirst
    exact h.trans ht (ih h.grown.linked (Nat.lt_of_lt_of_le hp h.grown.count_le) hrest)

theorem instanceLevel_instanced (ht : t.Linked) (hn : n < t.count) (hps : ∀ p ∈ ps, t.Below n p)
    (hon : (instanceLevel proto names ps).on t = (.ok ids, t')) : Instanced n t t' ids := by
  induction ps generalizing t ids with
  | nil =>
    cases hon
    exact ⟨.refl ht, rfl, by simp⟩
  | cons p ps ih =>
    obtain ⟨row, t₁, hrow, hon⟩ := on_bind_eq_ok hon
    rw [on_change_bind] at hon
    obtain ⟨rest, t₂, hrest, hon⟩ := on_bind_eq_ok hon
    cases hon
    have hp := hps p List.mem_cons_self
    have hmade := (instanceRow_instanced ht (hp.lt_count hn) hrow).mono hp
    have h := hmade.reorder ht (hmade.grown.below hp) row
    exact h.trans ht (ih h.grown.linked (Nat.lt_of_lt_of_le hn h.grown.count_le)
      (fun p' hp' => h.grown.below (hps p' (List.mem_cons_of_mem _ hp'))) hrest)

theorem instanceLevels_instanced (ht : t.Linked) (hn : n < t.count) (hps : ∀ p ∈ ps, t.Below n p)
    (hon : (instanceLevels proto levels ps).on t = (.ok ids, t')) : Instanced n t t' ids := by
  induction levels generalizing t ps with
  | nil =>
    cases hon
    exact ⟨.refl ht, rfl, hps⟩
  | cons names levels ih =>
    obtain ⟨row, t₁, hrow, hon⟩ := on_bind_eq_ok hon
    have h := instanceLevel_instanced ht hn hps hrow
    have h' := ih h.grown.linked (Nat.lt_of_lt_of_le hn h.grown.count_le) h.below hon
    exact ⟨h.grown.trans ht h'.grown, h'.same_root.trans h.same_root, h'.below⟩

/-! ## One branch -/

/-- **A tree in which a branch has been expanded**, told without names. -/
structure BranchDone (n : Nat) (t t' : Tree) : Prop where
  regrown : ∃ cs, Forest.Regrown cs n t.toForest t'.toForest
  same_root : t'.root = t.root
  cleared : (t'.node n).payload.instances = []

theorem grown_foldl_splice {f : Forest} {ts leaves : List Nat} (hf : f.Linked) (hn : n < f.count)
    (hleaves : ∀ x ∈ leaves, f.Below n x) :
    Forest.Grown n f (leaves.foldl (fun f leaf => f.splice ts leaf) f) := by
  induction leaves generalizing f with
  | nil => exact .refl hf
  | cons x leaves ih =>
    have hx := hleaves x List.mem_cons_self
    have h : Forest.Grown n f (f.splice ts x) := (Forest.grown_spliceWithin hf (hx.lt_count hn)).mono hx
    exact h.trans hf (ih h.linked (Nat.lt_of_lt_of_le hn h.count_le) fun y hy =>
      h.below (hleaves y (List.mem_cons_of_mem _ hy)))

theorem expandNode_done (ht : t.Linked) (hn : n < t.count) (hon : (expandNode n).on t = (.ok k, t')) :
    BranchDone n t t' := by
  obtain ⟨levels, hlevels⟩ := exists_levelNames hon
  have hcut := cut_withoutTemplate ht n levels
  obtain ⟨leaves, u, hmade, rfl⟩ := exists_made_of_on ht hlevels hon
  have hinst :=
    instanceLevels_instanced (n := n) (hcut.linked ht) (by rwa [hcut.count]) (by simp [Forest.Below.refl]) hmade
  have hnu : n < u.count := Nat.lt_of_lt_of_le (by rwa [hcut.count]) hinst.grown.count_le
  have hsplice :
      Forest.Grown n u.toForest (leaves.foldl (fun f leaf => f.splice (t.template n levels) leaf) u.toForest) :=
    grown_foldl_splice hinst.grown.linked hnu hinst.below
  have hshape : Forest.SameShape n _ (u.finishBranch n (t.template n levels) leaves).toForest :=
    Forest.sameShape_modify (fun _ => rfl) (fun _ => rfl) fun _ _ => Iff.rfl
  refine ⟨⟨t.template n levels, fun _ hc => parent?_of_mem_template ht hc, _, hcut, ?_⟩, hinst.same_root, ?_⟩
  · exact (hinst.grown.trans (hcut.linked ht) hsplice).trans (hcut.linked ht) (hshape.grown hsplice.linked)
  · change (Forest.node (Forest.modify _ _ _) n).payload.instances = []
    rw [Forest.node_modify_self _ (Nat.lt_of_lt_of_le hnu hsplice.count_le)]
    exact Payload.instances_clearInstances _

/-! ## One pass -/

theorem expandPass_skip (hids : ∀ x ∈ ids, t.isAttached x = false) (rest : List NodeId) :
    (expandPass stats (ids ++ rest)).on t = (expandPass stats rest).on t := by
  induction ids with
  | nil => rfl
  | cons id ids ih =>
    obtain ⟨hid, hids⟩ := List.forall_mem_cons.1 hids
    rw [List.cons_append, expandPass, on_get_bind, if_neg (by simp [hid])]
    exact ih hids

/-- **What a pass at depth `k` still has to do**: every pending node lies deeper, or is on the list. -/
structure Deep (k : Nat) (ids : List NodeId) (t : Tree) : Prop where
  rooted : t.Rooted
  old : ∀ x ∈ ids, x < t.count
  listed : ∀ q x, x ∈ ids → t.Route t.root q x → k ≤ q.length
  pending : ∀ q x, t.Route t.root q x → (t.node x).payload.instances ≠ [] → k < q.length ∨ x ∈ ids

theorem BranchDone.rooted (h : BranchDone n t t') (ht : t.Rooted) : t'.Rooted := by
  obtain ⟨cs, hre⟩ := h.regrown
  refine ⟨hre.linked, ?_, ?_⟩
  · rw [h.same_root, hre.parent? ht.root_lt_count, ht.root_top]
    exact ite_self none
  · rw [h.same_root]
    exact Nat.lt_of_lt_of_le ht.root_lt_count hre.count_le

namespace Deep

variable {id : Nat}

theorem skip (h : Deep k (id :: ids) t) (hid : ¬ t.Below t.root id) : Deep k ids t where
  rooted := h.rooted
  old := fun x hx => h.old x (List.mem_cons_of_mem _ hx)
  listed := fun q x hx => h.listed q x (List.mem_cons_of_mem _ hx)
  pending := by
    intro q x hr hx
    refine (h.pending q x hr hx).imp_right fun hm => (List.mem_cons.1 hm).resolve_left ?_
    rintro rfl
    exact hid ⟨q, hr⟩

/-- **An expansion leaves nothing pending above the nodes it makes**, and these lie below the branch. -/
theorem step (h : Deep k (id :: ids) t) (hid : t.Below t.root id) (hdone : BranchDone id t t') : Deep k ids t' := by
  obtain ⟨cs, hre⟩ := hdone.regrown
  have ht := h.rooted.linked
  have hback {q : List String} {x : Nat} (hx : x < t.count) (hr : t'.Route t'.root q x) : t.Route t.root q x := by
    rw [hdone.same_root] at hr
    exact hre.route_back ht hx hr
  refine ⟨hdone.rooted h.rooted, fun x hx => Nat.lt_of_lt_of_le (h.old x (List.mem_cons_of_mem _ hx)) hre.count_le,
    fun q x hx hr => ?_, fun q x hr hx => ?_⟩
  · exact h.listed q x (List.mem_cons_of_mem _ hx) (hback (h.old x (List.mem_cons_of_mem _ hx)) hr)
  by_cases hbelow : t'.Below id x
  · obtain ⟨r, hr'⟩ := hbelow
    cases r with
    | nil =>
      rw [hr'.eq_of_nil, hdone.cleared] at hx
      exact absurd rfl hx
    | cons name r =>
      -- the branch itself lies at depth `k` or deeper
      have hup : t'.Below t'.root id := by
        rcases hr.below_or_above ⟨_, hr'⟩ with hup | hdown
        · exact hup
        · rw [hdown.eq_of_top (hdone.rooted h.rooted).root_top]
          exact .refl
      obtain ⟨s, hs⟩ := hup
      have hk := h.listed s id List.mem_cons_self (hback (h.old id List.mem_cons_self) hs)
      rw [hre.linked.route_unique hr (hs.trans hr'), List.length_append, List.length_cons]
      exact .inl (by omega)
  · have hlt : x < t.count := by
      by_contra hlt
      exact hbelow (hre.fresh (by omega) (hr.lt_count (hdone.rooted h.rooted).root_lt_count))
    have hr' := hback hlt hr
    have hold : ¬ t.Below id x := fun hb => hbelow (hre.below_of_route ht hid hb (hdone.same_root ▸ hr) hlt)
    rw [hre.outside ht hlt hold] at hx
    refine (h.pending q x hr' hx).imp_right fun hm => (List.mem_cons.1 hm).resolve_left ?_
    rintro rfl
    exact hold .refl

end Deep

theorem expandPass_deep (h : Deep k ids t) (hon : (expandPass stats ids).on t = (.ok stats', t')) : Deep k [] t' := by
  induction ids generalizing t stats with
  | nil =>
    cases hon
    exact h
  | cons id ids ih =>
    rw [expandPass, on_get_bind] at hon
    by_cases hid : t.Below t.root id
    · rw [if_pos ((isAttached_iff h.rooted.linked h.rooted.root_top).2 hid)] at hon
      obtain ⟨created, t₁, hone, hon⟩ := on_bind_eq_ok hon
      exact ih (h.step hid (expandNode_done h.rooted.linked (h.old id List.mem_cons_self) hone)) hon
    · rw [if_neg (mt (isAttached_iff h.rooted.linked h.rooted.root_top).1 hid)] at hon
      exact ih (h.skip hid) hon

/-! ## Pass after pass -/

/-- **The tree after a number of passes**, if so many are made. -/
def afterPasses : (k : Nat) → ExpansionStats → Tree → Option Tree
  | 0, _, t => some t
  | k + 1, stats, t =>
    if t.pending = [] then none
    else
      match (expandPass { stats with iterations := stats.iterations + 1 } t.pending).on t with
      | (.ok stats, t) => afterPasses k stats t
      | (.error _, _) => none

theorem mem_pending (ht : t.Linked) : x ∈ t.pending ↔ t.Below t.root x ∧ (t.node x).payload.instances ≠ [] := by
  rw [pending, List.mem_filter, mem_preorder ht]
  simp

/-- **Nothing is pending above a depth.** -/
def PendingFrom (k : Nat) (t : Tree) : Prop :=
  ∀ q x, t.Route t.root q x → (t.node x).payload.instances ≠ [] → k ≤ q.length

/-- **A pass moves what is pending one level down.** -/
theorem expandPass_pendingFrom (ht : t.Rooted) (h : PendingFrom k t)
    (hon : (expandPass stats t.pending).on t = (.ok stats', t')) :
    t'.Rooted ∧ PendingFrom (k + 1) t' := by
  have hdeep : Deep k t.pending t := by
    refine ⟨ht, fun x hx => ((mem_pending ht.linked).1 hx).1.lt_count ht.root_lt_count, fun q x hx hr => ?_,
      fun q x hr hx => .inr ((mem_pending ht.linked).2 ⟨⟨q, hr⟩, hx⟩)⟩
    exact h q x hr ((mem_pending ht.linked).1 hx).2
  have hdone := expandPass_deep hdeep hon
  exact ⟨hdone.rooted, fun q x hr hx => (hdone.pending q x hr hx).resolve_right (by simp)⟩

theorem settle_eq (stats : ExpansionStats) (t : Tree) : settle stats t =
    if t.pending = [] then some (t, .ok stats)
    else
      match (expandPass { stats with iterations := stats.iterations + 1 } t.pending).on t with
      | (.ok stats, t) => settle stats t
      | (.error e, t) => some (t, .error e) := by
  rw [settle]
  split
  · rename_i h
    rw [if_pos h]
  · rename_i ids h
    rw [if_neg (by simpa using h)]
    rfl

theorem length_le_height {f : Forest} {a : Nat} (hf : f.Linked) (h : f.Route a q x) : q.length ≤ f.height a := by
  have hmax : ∀ (l : List Nat) (m : Nat), m ≤ l.foldl max m ∧ ∀ y ∈ l, y ≤ l.foldl max m := by
    intro l
    induction l with
    | nil => simp
    | cons y l ih =>
      intro m
      obtain ⟨hm, hl⟩ := ih (max m y)
      exact ⟨by simp only [List.foldl_cons]; omega,
        by simp only [List.mem_cons, List.foldl_cons]; rintro z (rfl | hz); omega; exact hl z hz⟩
  have hwithin : ∀ (d : Nat) {a : Nat} {q : List String}, f.Route a q x → q.length ≤ d →
      q.length ≤ f.heightWithin d a := by
    intro d
    induction d with
    | zero => exact fun _ hd => hd
    | succ d ih =>
      intro a q hq hd
      cases q with
      | nil => exact Nat.zero_le _
      | cons name r =>
        obtain ⟨c, hc, -, hr⟩ := hq.of_cons
        have hle := ih hr (by simpa using hd)
        have := (hmax ((f.children a).map fun c => f.heightWithin d c + 1) 0).2 _
          (List.mem_map_of_mem (hf.mem_children.2 hc))
        rw [Forest.heightWithin, List.length_cons]
        omega
  exact hwithin f.count h (hf.length_le_count h)

theorem bounded_of_settle {r : Tree × Except ExpansionError ExpansionStats} (h : settle stats t = some r) :
    ∃ d, ∀ k u, afterPasses k stats t = some u → u.height u.root ≤ d := by
  refine settle.partial_correctness (fun stats t _ => ∃ d, ∀ k u, afterPasses k stats t = some u → u.height u.root ≤ d)
    (fun settle' ih stats t r h => ?_) stats t r h
  have hstart : afterPasses 0 stats t = some t := rfl
  split at h
  · rename_i hnone
    refine ⟨t.height t.root, fun k u hu => ?_⟩
    cases k with
    | zero => cases hu; exact Nat.le_refl _
    | succ k => rw [afterPasses, if_pos hnone] at hu; cases hu
  · rename_i hsome
    have hsome : t.pending ≠ [] := by simpa using hsome
    split at h
    · rename_i stats₁ t₁ hpass
      obtain ⟨d, hd⟩ := ih _ _ _ h
      refine ⟨max (t.height t.root) d, fun k u hu => ?_⟩
      cases k with
      | zero => cases hu; exact Nat.le_max_left _ _
      | succ k =>
        rw [afterPasses, if_neg hsome, Expanding.on, hpass] at hu
        exact Nat.le_trans (hd k u hu) (Nat.le_max_right _ _)
    · rename_i e t₁ hpass
      refine ⟨t.height t.root, fun k u hu => ?_⟩
      cases k with
      | zero => cases hu; exact Nat.le_refl _
      | succ k => rw [afterPasses, if_neg hsome, Expanding.on, hpass] at hu; cases hu

/-- **An expansion whose trees stay below a height ends**: with every pass what is pending has less room left. -/
theorem settle_of_bounded (ht : t.Rooted) (h : PendingFrom k t)
    (hd : ∀ k u, afterPasses k stats t = some u → u.height u.root ≤ d) :
    ∃ r, settle stats t = some r := by
  induction hroom : d + 1 - k generalizing k stats t with
  | zero =>
    rw [settle_eq, if_pos]
    · exact ⟨_, rfl⟩
    refine List.eq_nil_iff_forall_not_mem.2 fun x hx => ?_
    obtain ⟨⟨q, hq⟩, hx⟩ := (mem_pending ht.linked).1 hx
    have := Nat.le_trans (Nat.le_trans (h q x hq hx) (length_le_height ht.linked hq)) (hd 0 t rfl)
    omega
  | succ room ih =>
    rw [settle_eq]
    split
    · exact ⟨_, rfl⟩
    · rename_i hsome
      split
      · rename_i stats₁ t₁ hpass
        obtain ⟨ht₁, h₁⟩ := expandPass_pendingFrom ht h hpass
        refine ih ht₁ h₁ (fun k u hu => hd (k + 1) u ?_) (by omega)
        rw [afterPasses, if_neg hsome, hpass]
        exact hu
      · exact ⟨_, rfl⟩

/-- **An expansion ends just when the trees it passes through stay below some height.** -/
theorem expand_ends_iff (ht : t.Rooted) :
    (∃ r, t.expand = some r) ↔ ∃ d, ∀ k u, afterPasses k {} t = some u → u.height u.root ≤ d :=
  ⟨fun ⟨_, h⟩ => bounded_of_settle h, fun ⟨_, hd⟩ => settle_of_bounded ht (fun _ _ _ _ => Nat.zero_le _) hd⟩

theorem pending_of_settle (h : settle stats t = some (u, .ok stats')) : u.pending = [] := by
  refine settle.partial_correctness (fun _ _ r => ∀ stats u, r = (u, .ok stats) → u.pending = [])
    (fun settle' ih stats t r h stats' u hr => ?_) stats t (u, .ok stats') h stats' u rfl
  subst hr
  split at h
  · rename_i hnone
    cases h
    exact hnone
  · split at h
    · exact ih _ _ _ h _ _ rfl
    · cases h

end Tree
end SignalCatalog
