import SignalCatalog.Proofs.Expand.Turns
import SignalCatalog.Proofs.Forest.Alike
/-!
# Expansions of trees that look alike

An expansion takes trees that look alike to trees that look alike, pass by pass, or fails on both, or ends on neither.
-/
namespace SignalCatalog

namespace Sketch

def assign : (depth times : Nat) → Sketch → Sketch
  | 0, times, b => ⟨b.content, ⟨!b.content.payload.instances.isEmpty, times⟩, fun _ => []⟩
  | depth + 1, times, b =>
    ⟨b.content, ⟨!b.content.payload.instances.isEmpty, times⟩,
      fun name => (b.kids name).map fun e => (e.1, assign depth e.1 e.2)⟩

def plain : (depth : Nat) → Sketch → Sketch
  | 0, b => ⟨b.content, {}, fun _ => []⟩
  | depth + 1, b => ⟨b.content, {}, fun name => (b.kids name).map fun e => (e.1, plain depth e.2)⟩

end Sketch

namespace Tree

variable {s t t' u : Tree} {x d : Nat} {stats stats' : ExpansionStats}

/-! ## Duties -/

theorem plain_sketch (f : Forest) (duty : NodeId → Duty) (d x : Nat) : (f.sketch duty d x).plain d = f.look d x := by
  induction d generalizing x with
  | zero => rfl
  | succ d ih =>
    rw [Forest.look, Forest.sketch_succ, Forest.sketch_succ, Sketch.plain]
    congr 1
    funext name
    dsimp only
    rw [Forest.kids, Forest.kids, List.map_map]
    exact List.map_congr_left fun e _ => by rw [Function.comp_apply, ih]

/-- What a pass owes shows in the look of the tree. -/
theorem assign_look (hs : s.Linked) (hx : x < s.count) :
    (s.look d x).assign d (s.duties x).times = s.sketch s.duties d x := by
  induction d generalizing x with
  | zero =>
    rw [Forest.look, Forest.sketch, Forest.sketch, Sketch.assign, duties, if_pos hx]
    rfl
  | succ d ih =>
    rw [Forest.look, Forest.sketch_succ, Forest.sketch_succ, Sketch.assign]
    congr 1
    · rw [duties, if_pos hx]
      rfl
    · funext name
      dsimp only
      rw [Forest.kids, Forest.kids, List.map_map]
      refine List.map_congr_left fun e he => ?_
      obtain ⟨hparent, hname⟩ := hs.mem_of_tally he
      have hlt := Forest.lt_count_of_parent? hparent
      have htimes : e.1 = (s.duties e.2).times := by
        rw [(mem_tally he).2, Forest.named, List.count_filter (by simpa using hname), duties, if_pos hlt, hparent]
        rfl
      rw [Function.comp_apply, htimes, ih hlt]

theorem times_root (hs : s.Rooted) : (s.duties s.root).times = 0 := by
  rw [duties, if_pos hs.root_lt_count, hs.root_top]
  rfl

/-! ## Passes -/

namespace Alike

theorem pending_eq_nil (h : Alike t t') (ht : t.Orderly) (ht' : t'.Orderly) (hnone : t.pending = []) :
    t'.pending = [] := by
  refine List.filter_eq_nil_iff.2 fun y hy => ?_
  obtain ⟨x, hx, hentry⟩ := List.mem_map.1 ((h.perm ht ht').subset (List.mem_map_of_mem hy))
  rw [show (t'.node y).payload = (t.node x).payload from congrArg (fun e => e.2.payload) hentry.symm]
  exact List.filter_eq_nil_iff.1 hnone x hx

/-- **A pass takes trees that look alike to trees that look alike.** -/
theorem pass (h : Alike t t') (ht : t.Orderly) (ht' : t'.Orderly)
    (hon : (expandPass stats t.pending).on t = (.ok stats', u)) (stats₁ : ExpansionStats) :
    ∃ stats₁' u', (expandPass stats₁ t'.pending).on t' = (.ok stats₁', u') ∧ Alike u u' ∧ u.Orderly ∧ u'.Orderly := by
  have hsketch (d : Nat) : t'.sketch t'.duties d t'.root = t.sketch t.duties d t.root := by
    rw [← assign_look ht'.linked ht'.root_lt_count, ← assign_look ht.linked ht.root_lt_count, times_root ht.toRooted,
      times_root ht'.toRooted, h.look]
  rcases expandPass_sketch stats ht with ⟨_, v, hon', hv, hroot, hname, hall⟩ | ⟨e, v, d, hon', -⟩
  · rw [hon] at hon'
    cases hon'
    rcases expandPass_sketch stats₁ ht' with ⟨stats₁', u', hon₁, hu', hroot', hname', hall'⟩ | ⟨e, v, d, -, hnot⟩
    · refine ⟨stats₁', u', hon₁, ⟨by rw [hname', h.root, hname], fun d => ?_⟩, hv, hu'⟩
      rw [← plain_sketch _ t'.duties, ← plain_sketch _ t.duties, hroot, hroot', ← (hall d).2, ← (hall' d).2,
        hsketch]
    · rw [hsketch] at hnot
      exact absurd (hall d).1 hnot
  · rw [hon] at hon'
    cases hon'

/-- **An expansion takes trees that look alike to trees that look alike**, and ends on both if it ends on one. -/
theorem settle (h : Alike t t') (ht : t.Orderly) (ht' : t'.Orderly)
    (hs : settle stats t = some (u, .ok stats')) (stats₁ : ExpansionStats) :
    ∃ stats₁' u', Tree.settle stats₁ t' = some (u', .ok stats₁') ∧ Alike u u' ∧ u.Orderly ∧ u'.Orderly := by
  refine settle.partial_correctness (fun _ t r => ∀ stats' u, r = (u, .ok stats') → ∀ t' stats₁,
      Alike t t' → t.Orderly → t'.Orderly →
      ∃ stats₁' u', Tree.settle stats₁ t' = some (u', .ok stats₁') ∧ Alike u u' ∧ u.Orderly ∧ u'.Orderly)
    (fun settle' ih stats t r hr stats' u heq t' stats₁ h ht ht' => ?_) stats t (u, .ok stats') hs stats' u
      rfl t' stats₁ h ht ht'
  subst heq
  split at hr
  · rename_i hnone
    cases hr
    exact ⟨stats₁, t', by rw [settle_eq, if_pos (h.pending_eq_nil ht ht' hnone)], h, ht, ht'⟩
  · rename_i hsome
    have hsome : t.pending ≠ [] := by simpa using hsome
    split at hr
    · rename_i hpass
      obtain ⟨stats₂, v', hon, halike, hv, hv'⟩ := h.pass ht ht' hpass
        { stats₁ with iterations := stats₁.iterations + 1 }
      obtain ⟨stats₃, u', hu', hdone⟩ := ih _ _ _ hr _ _ rfl v' stats₂ halike hv hv'
      refine ⟨stats₃, u', ?_, hdone⟩
      rw [settle_eq, if_neg fun hnone => hsome (h.symm.pending_eq_nil ht' ht hnone), hon]
      exact hu'
    · cases hr

end Alike

end Tree
end SignalCatalog
