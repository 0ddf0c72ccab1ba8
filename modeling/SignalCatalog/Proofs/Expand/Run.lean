import SignalCatalog.Proofs.Expand.Passes
import SignalCatalog.Proofs.Forest.Carried
/-!
# The run of an expansion

An expansion as a machine.  Its state is the tree and the nodes that are left of the pass: each of them is expanded if
it is attached still, and passed over otherwise, and when none is left the next pass begins.  What every step keeps, the
whole expansion keeps.
-/
namespace SignalCatalog
namespace Tree

variable {t t' u u' : Tree} {id k n : Nat} {ids : List NodeId} {stats stats' : ExpansionStats}

/-- **The states that an expansion of a tree comes to**: what is left of the pass, and the tree. -/
inductive Reaches (t : Tree) : List NodeId → Tree → Prop
  | start : Reaches t [] t
  | pass {u : Tree} : Reaches t [] u → Reaches t u.pending u
  | skip {id : NodeId} {ids : List NodeId} {u : Tree} : Reaches t (id :: ids) u →
      u.isAttached id = false → Reaches t ids u
  | expand {id : NodeId} {ids : List NodeId} {u u' : Tree} {k : Nat} : Reaches t (id :: ids) u →
      u.isAttached id = true → (expandNode id).on u = (.ok k, u') → Reaches t ids u'

theorem Reaches.expandPass (h : t.Reaches ids u) (hon : (expandPass stats ids).on u = (.ok stats', u')) :
    t.Reaches [] u' := by
  induction ids generalizing u stats with
  | nil =>
    cases hon
    exact h
  | cons id ids ih =>
    rw [Tree.expandPass, on_get_bind] at hon
    split at hon
    · rename_i hid
      obtain ⟨created, u₁, hone, hon⟩ := on_bind_eq_ok hon
      exact ih (h.expand hid hone) hon
    · rename_i hid
      exact ih (h.skip (by simpa using hid)) hon

theorem Reaches.settle (h : t.Reaches [] u) (hs : settle stats u = some (t', .ok stats')) : t.Reaches [] t' := by
  refine settle.partial_correctness (fun _ u r => t.Reaches [] u → ∀ stats t', r = (t', .ok stats) → t.Reaches [] t')
    (fun settle' ih stats u r hr hu stats' t' heq => ?_) stats u (t', .ok stats') hs h stats' t' rfl
  subst heq
  split at hr
  · cases hr
    exact hu
  · split at hr
    · rename_i hpass
      exact ih _ _ _ hr (hu.pass.expandPass hpass) _ _ rfl
    · cases hr

theorem reaches_of_expand (h : t.expand = some (t', .ok stats)) : t.Reaches [] t' := Reaches.start.settle h

/-! ## One pending branch -/

section One

variable (hpending : t.pending = [n]) (hn : t.isAttached n = true) (hon : (expandNode n).on t = (.ok k, t'))
  (hdone : t'.pending = [])
include hpending hn hon hdone

/-- **An expansion of one branch** takes one pass. -/
theorem expand_of_one : t.expand = some (t', .ok { iterations := 1, expanded := 1, created := k }) := by
  have hpass : (expandPass { iterations := 1 } t.pending).on t =
      (.ok { iterations := 1, expanded := 1, created := k }, t') := by
    rw [hpending, Tree.expandPass, on_get_bind, if_pos hn, on_bind_ok hon, Nat.zero_add, Nat.zero_add]
    rfl
  rw [expand, settle_eq, if_neg (by simp [hpending]), show (Tree.expandPass _ t.pending).on t = _ from hpass]
  exact (settle_eq _ _).trans (if_pos hdone)

theorem Reaches.of_one (h : t.Reaches ids u) : ids = [] ∧ u = t ∨ ids = [n] ∧ u = t ∨ ids = [] ∧ u = t' := by
  induction h with
  | start => simp
  | pass _ ih =>
    rcases ih with ⟨-, rfl⟩ | ⟨hids, -⟩ | ⟨-, rfl⟩
    · exact .inr (.inl ⟨hpending, rfl⟩)
    · cases hids
    · exact .inr (.inr ⟨hdone, rfl⟩)
  | skip _ hid ih =>
    rcases ih with ⟨hids, -⟩ | ⟨hids, rfl⟩ | ⟨hids, -⟩
    · cases hids
    · cases hids
      rw [hn] at hid
      cases hid
    · cases hids
  | expand _ _ hon' ih =>
    rcases ih with ⟨hids, -⟩ | ⟨hids, rfl⟩ | ⟨hids, -⟩
    · cases hids
    · cases hids
      rw [hon] at hon'
      cases hon'
      exact .inr (.inr ⟨rfl, rfl⟩)
    · cases hids

end One

/-! ## What every state keeps -/

/-- **What every expansion of a branch keeps, every state has.** -/
theorem Reaches.preserves {P : Tree → Prop}
    (hstep : ∀ {id : NodeId} {ids : List NodeId} {u u' : Tree} {k : Nat},
      t.Reaches (id :: ids) u → u.isAttached id = true →
      (expandNode id).on u = (.ok k, u') → P u → P u') (h : t.Reaches ids u) (ht : P t) : P u := by
  induction h with
  | start => exact ht
  | pass _ ih => exact ih
  | skip _ _ ih => exact ih
  | expand h hid hon ih => exact hstep h hid hon ih

theorem Reaches.rooted (h : t.Reaches ids u) (ht : t.Rooted) : u.Rooted :=
  h.preserves (fun _ hid hon ih => by
    have hbelow := (isAttached_iff ih.linked ih.root_top).1 hid
    exact (expandNode_done ih.linked (hbelow.lt_count ih.root_lt_count) hon).rooted ih) ht

/-! ## What an expansion carries on -/

section Carries

open Forest (Carries)

variable {G : Content → Prop} {proto : Payload} {name : String} {names : List String}
  {levels : List (List String)} {c n p : Nat} {ps leaves : List NodeId}

theorem instanceNode_carries {a : Except ExpansionError NodeId} (h : Carries G t.toForest) (hproto : G ⟨proto, false⟩)
    (hon : (instanceNode proto p name).on t = (a, t')) : Carries G t'.toForest := by
  rw [instanceNode_on] at hon
  split at hon
  · cases hon
    exact h.addChild hproto
  · split at hon
    · cases hon
      change Carries G (if _ then _ else _)
      split
      · exact h.declare hproto
      · exact h
    · cases hon
      exact h

theorem instanceRow_carries {a : Except ExpansionError (List NodeId)} (h : Carries G t.toForest)
    (hproto : G ⟨proto, false⟩) (hon : (instanceRow proto p names).on t = (a, t')) : Carries G t'.toForest := by
  induction names generalizing t a with
  | nil =>
    cases hon
    exact h
  | cons name names ih =>
    rcases on_bind_cases hon with ⟨e, hfirst, -⟩ | ⟨c, t₁, hfirst, hon⟩
    · exact instanceNode_carries h hproto hfirst
    have h₁ := instanceNode_carries h hproto hfirst
    rcases on_bind_cases hon with ⟨e, hrest, -⟩ | ⟨rest, t₂, hrest, hon⟩
    · exact ih h₁ hrest
    · cases hon
      exact ih h₁ hrest

theorem instanceLevel_carries {a : Except ExpansionError (List NodeId)} (h : Carries G t.toForest)
    (hproto : G ⟨proto, false⟩) (hon : (instanceLevel proto names ps).on t = (a, t')) : Carries G t'.toForest := by
  induction ps generalizing t a with
  | nil =>
    cases hon
    exact h
  | cons p ps ih =>
    rcases on_bind_cases hon with ⟨e, hrow, -⟩ | ⟨row, t₁, hrow, hon⟩
    · exact instanceRow_carries h hproto hrow
    have h₁ := (instanceRow_carries h hproto hrow).reorder (p := p) row
    rw [on_change_bind] at hon
    rcases on_bind_cases hon with ⟨e, hrest, -⟩ | ⟨rest, t₂, hrest, hon⟩
    · exact ih h₁ hrest
    · cases hon
      exact ih h₁ hrest

theorem instanceLevels_carries {a : Except ExpansionError (List NodeId)} (h : Carries G t.toForest)
    (hproto : G ⟨proto, false⟩) (hon : (instanceLevels proto levels ps).on t = (a, t')) : Carries G t'.toForest := by
  induction levels generalizing t ps with
  | nil =>
    cases hon
    exact h
  | cons names levels ih =>
    rcases on_bind_cases hon with ⟨e, hrow, -⟩ | ⟨row, t₁, hrow, hon⟩
    · exact instanceLevel_carries h hproto hrow
    · exact ih (instanceLevel_carries h hproto hrow) hon

variable (hdeclared : ∀ {c}, G c → G ⟨c.payload, false⟩)
  (hclear : ∀ {c}, G c → G ⟨c.payload.clearInstances, c.autogenerated⟩)
include hdeclared hclear

/-- **An expansion brings in no content of its own**: payloads are handed on, with or without their instances.  So it is
when it fails midway. -/
theorem expandNode_carries {a : Except ExpansionError Nat} (h : Carries G t.toForest) (ht : t.Linked) (hn : n < t.count)
    (hon : (expandNode n).on t = (a, t')) : Carries G t'.toForest := by
  rcases hlevels : levelNames (t.node n).payload with e | levels
  · rw [expandNode_on_invalid hlevels] at hon
    cases hon
    exact h
  have hcut := cut_withoutTemplate ht n levels
  have hcarry : Carries G (t.withoutTemplate n levels).toForest := Carries.foldl_detach h
  rcases hmade : (instanceLevels (t.node n).payload.clearInstances levels [n]).on (t.withoutTemplate n levels) with
    ⟨e | leaves, u⟩
  · rw [expandNode_on_error ht hlevels hmade] at hon
    cases hon
    exact instanceLevels_carries hcarry (hdeclared (hclear (h n hn))) hmade
  · rw [expandNode_on_ok ht hlevels hmade] at hon
    cases hon
    have hu := instanceLevels_carries hcarry (hdeclared (hclear (h n hn))) hmade
    have hinst :=
      instanceLevels_instanced (n := n) (hcut.linked ht) (by rwa [hcut.count]) (by simp [Forest.Below.refl]) hmade
    have hnu : n < u.count := Nat.lt_of_lt_of_le (by rwa [hcut.count]) hinst.grown.count_le
    have htemplate : ∀ c ∈ t.template n levels, c < u.count := fun c hc => by
      have hlt := Forest.lt_count_of_parent? (parent?_of_mem_template ht hc)
      rw [← hcut.count] at hlt
      exact Nat.lt_of_lt_of_le hlt hinst.grown.count_le
    refine Carries.modify ?_ fun _ hm => hclear hm
    exact Carries.foldl_splice hdeclared hu hinst.grown.linked htemplate fun x hx => (hinst.below x hx).lt_count hnu

theorem Reaches.carries (h : t.Reaches ids u) (ht : t.Rooted) (hcarry : Carries G t.toForest) : Carries G u.toForest :=
  h.preserves (P := fun u => Carries G u.toForest) (fun h hid hon ih => by
    have hu := h.rooted ht
    have hbelow := (isAttached_iff hu.linked hu.root_top).1 hid
    exact expandNode_carries hdeclared hclear ih hu.linked (hbelow.lt_count hu.root_lt_count) hon) hcarry

end Carries

end Tree
end SignalCatalog
