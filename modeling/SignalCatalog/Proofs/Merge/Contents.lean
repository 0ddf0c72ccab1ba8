import SignalCatalog.Proofs.Expand.Anchored
import SignalCatalog.Proofs.Merge.Exact
/-!
# Merges as functions of contents

What a place of the base holds after a merge depends on what the base and the overlay have at that place, and on nothing
else, where every placeholder of the overlay has a declared node below it.
-/
namespace SignalCatalog

variable {r : Registry} {a b c : Option Content} {d e : Content} {p : Payload} {l m n : Layer} {q : List String}

/-- **What becomes of a place** of a base where an overlay has a content or none.  A payload that is refused
changes nothing. -/
def Content.merged (r : Registry) : Option Content → Option Content → Option Content
  | none, d => d
  | some c, none => some c
  | some c, some d =>
    if d.autogenerated then some c
    else
      match Payload.refine r c.payload d.payload with
      | .ok p => some ⟨p, false⟩
      | .error _ => some c

def Content.Plain (d : Content) : Prop := d.autogenerated = true → d = .placeholder

namespace Content

theorem merged_none : merged r a none = a := by cases a <;> rfl

theorem merged_auto (h : e.autogenerated = true) : merged r (some d) (some e) = some d := by simp [merged, h]

theorem merged_refined (h : e.autogenerated = false) (hp : Payload.refine r d.payload e.payload = .ok p) :
    merged r (some d) (some e) = some ⟨p, false⟩ := by simp [merged, h, hp]

theorem exists_merged (d : Content) (b : Option Content) : ∃ e, merged r (some d) b = some e := by
  cases b with
  | none => exact ⟨d, rfl⟩
  | some e =>
    by_cases he : e.autogenerated = true
    · exact ⟨d, merged_auto he⟩
    · cases hp : Payload.refine r d.payload e.payload <;> simp [merged, he, hp]

theorem merged_placeholder_eq_iff (h : e.autogenerated = false) :
    merged r (some .placeholder) (some e) = some e ↔ Payload.refine r .placeholder e.payload = .ok e.payload := by
  obtain ⟨p, auto⟩ := e
  obtain rfl : auto = false := h
  cases hp : Payload.refine r .placeholder p <;> simp [merged, placeholder, hp]

/-- **At one place, two contents may be merged in either order**, unless the place is free: then what one of them
declares and the other has a placeholder for must be left as it is by a refinement of the placeholder. -/
theorem merged_comm_iff (hb : ∀ d ∈ b, d.Plain) (hc : ∀ e ∈ c, e.Plain)
    (hdisjoint : ∀ d ∈ b, ∀ e ∈ c, d.autogenerated = true ∨ e.autogenerated = true) :
    merged r (merged r a b) c = merged r (merged r a c) b ↔
      (a = none → ∀ d ∈ b, ∀ e ∈ c, Payload.refine r .placeholder d.payload = .ok d.payload ∧
        Payload.refine r .placeholder e.payload = .ok e.payload) := by
  have hself : Payload.refine r .placeholder Content.placeholder.payload = .ok Content.placeholder.payload := rfl
  rcases b with _ | d
  · simp [merged_none]
  rcases c with _ | e
  · simp [merged_none]
  have hor := hdisjoint d rfl e rfl
  cases a with
  | some x =>
    refine iff_of_true ?_ (by simp)
    have hkeep : ∀ {y f : Content}, f.autogenerated = true →
        merged r (merged r (some x) (some y)) (some f) = merged r (some x) (some y) := by
      intro y f hf
      obtain ⟨z, hz⟩ := exists_merged (r := r) x (some y)
      rw [hz, merged_auto hf]
    rcases hor with hd | he
    · rw [merged_auto hd, hkeep hd]
    · rw [merged_auto he, hkeep he]
  | none =>
    have hfree : ∀ f : Content, merged r none (some f) = some f := fun f => rfl
    simp only [hfree, Option.mem_def, Option.some.injEq, forall_eq', forall_const]
    by_cases hd : d.autogenerated = true
    · obtain rfl := hb d rfl hd
      by_cases he : e.autogenerated = true
      · obtain rfl := hc e rfl he
        simp [hself]
      · rw [merged_auto (e := .placeholder) rfl, merged_placeholder_eq_iff (by simpa using he)]
        simp [hself]
    · obtain rfl := hc e rfl (hor.resolve_left hd)
      rw [merged_auto (e := .placeholder) rfl, eq_comm, merged_placeholder_eq_iff (by simpa using hd)]
      simp [hself]

end Content

namespace Layer

/-- **A layer with another merged into it**, place by place. -/
def merged (r : Registry) (l m : Layer) : Layer := fun q => Content.merged r (l q) (m q)

/-- **No payload of the other layer is refused.** -/
def Accepts (r : Registry) (l m : Layer) : Prop :=
  ∀ q c d, l q = some c → m q = some d → d.autogenerated = false → ∃ p, Payload.refine r c.payload d.payload = .ok p

def Plain (m : Layer) : Prop := ∀ q, ∀ d ∈ m q, d.Plain

/-- **No place is declared in both layers.** -/
def Disjoint (m n : Layer) : Prop := ∀ q, ∀ d ∈ m q, ∀ e ∈ n q, d.autogenerated = true ∨ e.autogenerated = true

/-- **What both layers have and a third lacks** is left as it is by a refinement of a placeholder. -/
def SettledBeside (r : Registry) (l m n : Layer) : Prop :=
  ∀ q, l q = none → ∀ d ∈ m q, ∀ e ∈ n q, Payload.refine r .placeholder d.payload = .ok d.payload ∧
    Payload.refine r .placeholder e.payload = .ok e.payload

/-- **Disjoint layers may be merged in either order** just where they are settled beside the base. -/
theorem merged_comm_iff (hm : m.Plain) (hn : n.Plain) (h : m.Disjoint n) :
    (l.merged r m).merged r n = (l.merged r n).merged r m ↔ l.SettledBeside r m n := by
  rw [funext_iff]
  exact forall_congr' fun q => Content.merged_comm_iff (hm q) (hn q) (h q)

theorem accepts_swap (hn : n.Plain) (h : m.Disjoint n) (hsettled : l.SettledBeside r m n) (hlm : l.Accepts r m)
    (hlmn : (l.merged r m).Accepts r n) : l.Accepts r n ∧ (l.merged r n).Accepts r m := by
  have hkeep : ∀ {m n : Layer} {q : List String} {c d : Content}, m.Disjoint n → l q = some c → n q = some d →
      d.autogenerated = false → l.merged r m q = some c := by
    intro m n q c d h hc hd hown
    rw [merged, hc]
    cases he : m q with
    | none => rfl
    | some e => exact Content.merged_auto ((h q e he d hd).resolve_right (by simp [hown]))
  refine ⟨fun q c d hc hd hown => hlmn q c d (hkeep h hc hd hown) hd hown, fun q c d hc hd hown => ?_⟩
  cases hl : l q with
  | some c' =>
    have hsame := hkeep (fun q e he d hd => (h q d hd e he).symm) hl hd hown
    obtain rfl : c = c' := Option.some.inj (hc.symm.trans hsame)
    exact hlm q c d hl hd hown
  | none =>
    have hc : n q = some c := by rwa [merged, hl] at hc
    obtain rfl := hn q c hc ((h q d hd c hc).resolve_left (by simp [hown]))
    exact ⟨d.payload, (hsettled q hl d hd _ hc).1⟩

end Layer

namespace Tree

variable {b o t : Tree} {stats : MergeStats} {grafted : List NodeId}

/-- **A merge succeeds just when no payload is refused.** -/
theorem merge_ok_iff (hm : Aligned b o) : (∃ t stats, merge r b o = (t, .ok stats)) ↔
    b.contents.Accepts r o.contents := by
  have hbd := hm.base_found.siblingsDiffer hm.base
  have hod := hm.overlay_found.siblingsDiffer hm.overlay.toRooted
  constructor
  · rintro ⟨t, stats, hmerge⟩ q c d hc hd hown
    obtain ⟨x, hx, rfl⟩ := (Forest.content?_eq_some hm.base.linked hbd).1 hc
    obtain ⟨y, hy, rfl⟩ := (Forest.content?_eq_some hm.overlay.linked hod).1 hd
    have hfind : b.find? (o.fqn y) = some x := (hm.find?_base hy).trans ((hm.base.linked.descend?_eq_some hbd).2 hx)
    obtain ⟨-, p, hp, -⟩ :=
      (merged_of_merge hm.toMergeable hmerge).refined y ((mem_preorder hm.overlay.linked).2 ⟨q, hy⟩) hown x hfind
    exact ⟨p, hp⟩
  · intro haccepts
    rcases merge_run r hm with ⟨t, stats, -, hon, -⟩ | ⟨t, e, -, y, hy, hown, -, x, hfind, herror⟩
    · exact ⟨t, stats, hon⟩
    · obtain ⟨q, hq⟩ := (mem_preorder hm.overlay.linked).1 hy
      rw [hm.find?_base hq, hm.base.linked.descend?_eq_some hbd] at hfind
      obtain ⟨p, hp⟩ := haccepts q _ _ (Forest.content?_of_route hm.base.linked hbd hfind)
        (Forest.content?_of_route hm.overlay.linked hod hq) hown
      cases herror.symm.trans hp

theorem Merging.Underway.contents_merged (h : Merging.Underway r b o o.preorder grafted t) (hm : Aligned b o)
    (hplain : o.contents.Plain) (hanchored : o.Anchored) : t.contents = b.contents.merged r o.contents := by
  have hod := hm.overlay_found.siblingsDiffer hm.overlay.toRooted
  have hlinked := hm.overlay.linked
  funext q
  rw [Layer.merged]
  cases ho : o.contents q with
  | none =>
    have hno : ∀ y, ¬ o.Route o.root q y := (Forest.content?_eq_none hlinked hod).1 ho
    rw [Content.merged_none]
    cases hb : b.contents q with
    | some c =>
      obtain ⟨c', hc', -, hsame⟩ := h.old q c hb
      rw [hc', hsame fun y _ hy => absurd hy (hno y)]
    | none =>
      by_contra hsome
      obtain ⟨y, hy, -⟩ := h.fresh q hb hsome
      exact hno y hy
  | some d =>
    obtain ⟨y, hy, rfl⟩ := (Forest.content?_eq_some hlinked hod).1 ho
    have hyin := (mem_preorder hlinked).2 ⟨q, hy⟩
    have huniq : ∀ z, o.Route o.root q z → z = y := fun z hz => hlinked.route_right_unique hod hz hy
    cases hb : b.contents q with
    | some c =>
      obtain ⟨c', hc', hdone, hsame⟩ := h.old q c hb
      by_cases hauto : (o.node y).autogenerated = true
      · rw [hc', hsame fun z _ hz => huniq z hz ▸ hauto, Content.merged_auto (e := (o.node y).content) hauto]
      · have hown : (o.node y).autogenerated = false := by simpa using hauto
        obtain ⟨hrefine, hdeclared⟩ := hdone y hyin hy hown
        rw [hc', Content.merged_refined (d := c) (e := (o.node y).content) hown hrefine, ← hdeclared]
    | none =>
      show t.contents q = some (o.node y).content
      have hcopied : ∀ {s z}, o.Route o.root (q ++ s) z → (o.node z).autogenerated = false →
          t.contents (q ++ s) = some (o.node z).content := by
        intro s z hz hown
        have hnew := (hm.isNew_iff hz).2 ⟨hown, contents_append_eq_none hb s⟩
        exact h.copied z ((h.mem_grafted z).2 ⟨z, (mem_preorder hlinked).2 ⟨_, hz⟩, hnew, .refl⟩) _ hz
      by_cases hauto : (o.node y).autogenerated = true
      · -- the placeholder is made for a declared node below it, or comes along
        obtain ⟨z, ⟨s, hz⟩, hown⟩ := hanchored y hyin hauto
        have hdeep := hcopied (hy.trans hz) hown
        have hsome : t.contents q ≠ none := fun hnone => by
          rw [contents_append_eq_none hnone s] at hdeep
          cases hdeep
        obtain ⟨y', hy', hgrafted | ⟨-, hmade⟩⟩ := h.fresh q hb hsome
        · exact huniq y' hy' ▸ h.copied y' hgrafted q hy'
        · exact hmade.trans (congrArg some (hplain q _ ho hauto).symm)
      · have hy' : o.Route o.root (q ++ []) y := by rwa [List.append_nil]
        have hcopy := hcopied hy' (by simpa using hauto)
        rwa [List.append_nil] at hcopy

/-- **The contents after a merge.** -/
theorem contents_of_merge (hm : Aligned b o) (hplain : o.contents.Plain) (hanchored : o.Anchored)
    (hmerge : merge r b o = (t, .ok stats)) :
    t.contents = b.contents.merged r o.contents := by
  rcases merge_run r hm with ⟨t', stats', grafted, hon, hdone, -⟩ | ⟨t', e, hon, -⟩
  · rw [hon] at hmerge
    cases hmerge
    exact hdone.contents_merged hm hplain hanchored
  · rw [hon] at hmerge
    cases hmerge

end Tree
end SignalCatalog
