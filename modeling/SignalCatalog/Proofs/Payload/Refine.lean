import Mathlib.Data.List.Permutation
import SignalCatalog.Proofs.Expand.Regular
import SignalCatalog.Proofs.Merge.Refined
import SignalCatalog.Proofs.Payload.Written
/-!
# Refined payloads

A payload refined by another goes through the raw forms of both, so a field of the other counts only where it is
written.
-/
namespace SignalCatalog
namespace Payload

variable {r : Registry} {m : Mapping} {b o p : Payload} {old new : Kind} {key : Key} {f : Field} {v : Value}

/-- The names of the fields that are dropped with a change of kind. -/
def dropped (old new : Kind) : List String :=
  if new = old then [] else (if new.hasDatatype then [] else Kind.datatypeKeys) ++ if new = .branch then []
  else Kind.branchKeys

theorem dropForeign_eq (m : Mapping) : dropForeign old new m = (dropped old new).foldl Mapping.remove m := by
  rw [dropForeign, dropped]
  split
  · rfl
  · rw [List.foldl_append]
    split <;> split <;> rfl

theorem not_mem_dropped (h : key.IsOf new) : key.name ∉ dropped old new := by
  have hall : ∀ s ∈ dropped old new, s ∉ new.declaredKeys := by cases old <;> cases new <;> decide
  exact fun hmem => hall _ hmem h

/-- **Whether a key is dropped with a change of kind.** -/
def drops (old new : Kind) (v : Value) : Bool := (dropped old new).any fun name => (Value.string name).same v

theorem drops_of_isOf (hold : key.IsOf old) (hnew : ¬ key.IsOf new) : drops old new (.string key.name) = true := by
  have hall : ∀ s ∈ old.declaredKeys, s ∉ new.declaredKeys → s ∈ dropped old new := by
    cases old <;> cases new <;> decide
  exact List.any_eq_true.2 ⟨_, hall _ hold hnew, Value.same_refl _⟩

theorem drops_eq_false (h : key.IsOf new) : drops old new (.string key.name) = false := by
  refine List.any_eq_false.2 fun s hs hsame => ?_
  rw [Value.same_string_iff, Value.string.injEq] at hsame
  exact not_mem_dropped h (hsame ▸ hs)

theorem keyed_dropForeign (hm : m.Keyed) : (dropForeign old new m).Keyed := by
  rw [dropForeign_eq]
  exact hm.foldl_remove

theorem lookup?_dropForeign (hm : m.Keyed) (hv : v.repeatsKey = false) :
    (dropForeign old new m).lookup? v = if drops old new v then none else m.lookup? v := by
  rw [dropForeign_eq, Mapping.lookup?_foldl_remove hm hv, drops]

/-- The entries that a refined payload is read from. -/
def refinedEntries (b o : Payload) : Mapping := Mapping.extend (dropForeign b.kind o.kind b.raw) o.raw

theorem keyed_refinedEntries (hb : b.Proper) (ho : o.Proper) : (refinedEntries b o).Keyed :=
  (keyed_dropForeign (keyed_raw hb)).extend (keyed_raw ho)

theorem lookup?_refinedEntries (hb : b.Proper) (ho : o.Proper) (hv : v.repeatsKey = false) :
    (refinedEntries b o).lookup? v = (o.raw.lookup? v).or
      (if drops b.kind o.kind v then none else b.raw.lookup? v) := by
  rw [refinedEntries, Mapping.lookup?_extend (keyed_dropForeign (keyed_raw hb)) (keyed_raw ho) hv,
    lookup?_dropForeign (keyed_raw hb) hv]

theorem get?_refinedEntries (hb : b.Proper) (ho : o.Proper) (hof : key.IsOf o.kind) :
    (refinedEntries b o).get? key.name =
    (key.written (o.get key)).or
      (if key.IsOf b.kind then key.written (b.get key) else b.common.extra.get? key.name) := by
  rw [← get?_raw hb, Mapping.get?, lookup?_refinedEntries hb ho rfl, if_neg (by simp [drops_eq_false hof]),
    ← Mapping.get?, ← Mapping.get?, get?_raw ho, if_pos hof]

theorem lookup?_refinedEntries_extra (hb : b.Proper) (ho : o.Proper) (hv : v.repeatsKey = false)
    (hdeclared : isDeclared o.kind v = false) :
    (refinedEntries b o).lookup? v = (o.common.extra.lookup? v).or
      (if drops b.kind o.kind v then none else b.common.extra.lookup? v) := by
  have hother : ∀ key : Key, v = .string key.name → ¬ key.IsOf o.kind := by
    rintro key rfl hof
    rw [isDeclared_name.2 hof] at hdeclared
    cases hdeclared
  rw [lookup?_refinedEntries hb ho hv, lookup?_raw ho hv fun key hof heq => hother key heq hof]
  cases hdrops : drops b.kind o.kind v with
  | true => rfl
  | false =>
    rw [lookup?_raw hb hv]
    rintro key hof rfl
    -- a field of the old kind that is none of the new one would have been dropped
    rw [drops_of_isOf hof (hother key rfl)] at hdrops
    cases hdrops

theorem eq_of_written (hb : b.Proper) (ho : o.Proper) (hof : key.IsOf o.kind) (hwritten : o.get key ≠ key.absent)
    (hf : key.read (refinedEntries b o) = .ok f) : f = (o.get key).rewritten := by
  obtain ⟨w, hw⟩ := Option.ne_none_iff_exists'.1 (mt written_eq_none.1 hwritten)
  refine rewritten_of_read ho.nonnull hw ?_ hf
  rw [get?_refinedEntries hb ho hof, hw, Option.some_or]

theorem eq_of_kept (hb : b.Proper) (ho : o.Proper) (hof : key.IsOf o.kind) (hofb : key.IsOf b.kind)
    (habsent : o.get key = key.absent) (hf : key.read (refinedEntries b o) = .ok f) : f = (b.get key).rewritten := by
  have hm := get?_refinedEntries hb ho hof
  rw [habsent, key.written_absent, Option.none_or, if_pos hofb] at hm
  cases hw : key.written (b.get key) with
  | some w => exact rewritten_of_read hb.nonnull hw (hm.trans hw) hf
  | none =>
    rw [written_eq_none.1 hw, key.rewritten_absent]
    refine Key.read_of_not_gives ?_ hf
    rintro ⟨v, hv, -⟩
    rw [hm, hw] at hv
    cases hv

theorem read_of_raised (hb : b.Proper) (ho : o.Proper) (hof : key.IsOf o.kind) (hofb : ¬ key.IsOf b.kind)
    (habsent : o.get key = key.absent) :
    key.read (refinedEntries b o) = key.read b.common.extra := by
  refine Key.read_congr ?_
  rw [get?_refinedEntries hb ho hof, habsent, key.written_absent, Option.none_or, if_neg hofb]

theorem eq_of_gives_absent {e : Mapping} (hread : key.read e = .ok key.absent) (hgives : e.Gives key.name) :
    key ∈ [Key.delete, .instantiate, .fka, .instances] := by
  obtain ⟨v, hv, hnull⟩ := hgives
  cases key with
  | delete | instantiate | fka | instances => decide
  | type | description | datatype =>
    obtain ⟨a, -, ha⟩ := exists_of_map_eq_ok hread
    cases ha
  | _ =>
    obtain ⟨x, hx, hxa⟩ := exists_of_map_eq_ok hread
    obtain ⟨a, -, rfl⟩ := field_eq_ok hv hnull hx
    cases hxa

/-- **What a refinement makes of two payloads**, the second read from a mapping. -/
structure Refinement (e : Mapping) (b o p : Payload) : Prop where
  kind : p.kind = o.kind
  /-- A field that the mapping gives comes from the second payload, unless it is as if absent. -/
  given : ∀ key : Key, key.IsOf o.kind → e.Gives key.name → o.get key ≠ key.absent → p.get key = (o.get key).rewritten
  /-- All others come from the first where its kind declares them, -/
  kept : ∀ key : Key, key.IsOf o.kind → key.IsOf b.kind → (¬ e.Gives key.name ∨ o.get key = key.absent) →
    p.get key = (b.get key).rewritten
  /-- and are else read from its further attributes. -/
  raised : ∀ key : Key, key.IsOf o.kind → ¬ key.IsOf b.kind → (¬ e.Gives key.name ∨ o.get key = key.absent) →
    key.read b.common.extra = .ok (p.get key)
  fresh : ∀ key : Key, key.IsOf o.kind → ¬ key.IsOf b.kind → (¬ e.Gives key.name ∨ o.get key = key.absent) →
    ¬ b.common.extra.Gives key.name → p.get key = key.absent
  /-- Few fields can be given and yet be as if absent. -/
  lost : ∀ key : Key, key.IsOf o.kind → e.Gives key.name → o.get key = key.absent →
    key ∈ [Key.delete, .instantiate, .fka, .instances]
  /-- The further attributes are those of the second payload and those of the first that are not dropped with
  its kind. -/
  extra : ∀ v : Value, v.repeatsKey = false → isDeclared o.kind v = false →
    p.common.extra.lookup? v = (o.common.extra.lookup? v).or
      (if drops b.kind o.kind v then none else b.common.extra.lookup? v)

/-- **A payload refined by another**, key by key. -/
theorem refine_exact {e : Mapping} (hb : b.Proper) (he : e.Keyed) (ho : Payload.read r (.mapping e) = .ok o)
    (h : refine r b o = .ok p) :
    Refinement e b o p := by
  have hproper := proper_of_read he ho
  obtain ⟨-, hgeto⟩ := get_of_readFields (readFields_of_read ho)
  obtain ⟨hextra, hget⟩ := get_of_readFields (readFields_of_read h)
  have hkind : p.kind = o.kind := by
    have htype := eq_of_written hb hproper (Key.isOf_type _) (by simp [get, Key.absent]) (hget .type (Key.isOf_type _))
    exact Kind.name_inj (Option.some.inj (Field.text.inj htype))
  rw [hkind] at hextra hget
  have habsent : ∀ key : Key, key.IsOf o.kind → (¬ e.Gives key.name ∨ o.get key = key.absent) →
      o.get key = key.absent := fun key hof hor =>
    hor.elim (fun hgives => Key.read_of_not_gives hgives (hgeto key hof)) id
  have hraised : ∀ key : Key, key.IsOf o.kind → ¬ key.IsOf b.kind → (¬ e.Gives key.name ∨ o.get key = key.absent) →
      key.read b.common.extra = .ok (p.get key) := by
    intro key hof hofb hor
    rw [← read_of_raised hb hproper hof hofb (habsent key hof hor)]
    exact hget key hof
  exact {
    kind := hkind
    given := fun key hof _ hne => eq_of_written hb hproper hof hne (hget key hof)
    kept := fun key hof hofb hor => eq_of_kept hb hproper hof hofb (habsent key hof hor) (hget key hof)
    raised := hraised
    fresh := fun key hof hofb hor hgives => Key.read_of_not_gives hgives (hraised key hof hofb hor)
    lost := fun key hof hgives hnone => eq_of_gives_absent (hnone ▸ hgeto key hof) hgives
    extra := by
      intro v hv hdeclared
      rw [hextra, ← lookup?_refinedEntries_extra hb hproper hv hdeclared]
      refine Mapping.lookup?_filter fun e _ hsame => ?_
      rw [isDeclared, ← Value.asString?_of_same hsame, ← isDeclared, hdeclared]
      rfl }

def markedDoor : Payload where
  common :=
    { description := "door", comment := some "old", delete := true, extra := [(.string "color", .string "red")] }
  body := .branch []

theorem proper_markedDoor : markedDoor.Proper := by
  refine ⟨⟨List.pairwise_singleton _ _, ?_⟩, ?_, by simp [markedDoor, get, datatypeFields?]⟩
  · simp [markedDoor, Value.repeatsKey]
  · simp only [markedDoor, List.forall_mem_singleton]
    decide

def paintEntries : Mapping :=
  [(.string "type", .string "branch"), (.string "description", .string "painted"), (.string "color", .string "blue")]

def paint : Payload where
  common := { description := "painted", extra := [(.string "color", .string "blue")] }
  body := .branch []

def paintedDoor : Payload where
  common :=
    { description := "painted", comment := some "old", delete := true, extra := [(.string "color", .string "blue")] }
  body := .branch []

theorem refine_painted : Payload.read {} (.mapping paintEntries) = .ok paint ∧
    refine {} markedDoor paint = .ok paintedDoor ∧
    paintedDoor.get .description = paint.get .description ∧ paintedDoor.get .delete = markedDoor.get .delete ∧
      paintedDoor.common.extra.get? "color" = paint.common.extra.get? "color" := by
  have hread : Payload.read {} (.mapping paintEntries) = .ok paint := by cbv
  have hrefine : refine {} markedDoor paint = .ok paintedDoor := by cbv
  have hkeyed : paintEntries.Keyed :=
    ⟨by simp [paintEntries, Mapping.Distinct, Value.same], by simp [paintEntries, Value.repeatsKey]⟩
  have hdone := refine_exact proper_markedDoor hkeyed hread hrefine
  refine ⟨hread, hrefine, ?_, ?_, ?_⟩
  · exact hdone.given .description (by decide) ⟨.string "painted", rfl, by simp⟩ (by simp [get, Key.absent])
  · exact hdone.kept .delete (by decide) (by decide) (.inr rfl)
  · exact hdone.extra (.string "color") rfl (by decide)

def unmarkEntries : Mapping :=
  [(.string "type", .string "branch"), (.string "description", .string "door"), (.string "delete", .bool false)]

/-- **A mark is not taken back**: a field that is given as if it were absent does not count. -/
theorem refine_unmarked : ∃ o p, unmarkEntries.Gives "delete" ∧ Payload.read {} (.mapping unmarkEntries) = .ok o ∧
    refine {} markedDoor o = .ok p ∧ o.get .delete = .flag false ∧ p.get .delete = .flag true :=
  ⟨⟨{ description := "door" }, .branch []⟩, markedDoor, ⟨.bool false, rfl, by simp⟩, by cbv, by cbv, rfl, rfl⟩

/-! ## Trees of proper payloads -/

theorem proper_of_refine (hb : b.Proper) (ho : o.Proper) (h : refine r b o = .ok p) : p.Proper :=
  proper_of_read (keyed_refinedEntries hb ho) h

theorem proper_of_read_value (hv : v.repeatsKey = false) (h : Payload.read r v = .ok p) : p.Proper := by
  induction v using Value.induction with
  | mapping m =>
    rw [Value.repeatsKey, Value.repeatsKeyEntries_eq_false] at hv
    exact proper_of_read ⟨hv.1, fun e he => (hv.2 e he).1⟩ h
  | tagged tag v ih => exact ih hv h
  | _ => cases h

end Payload

variable {r : Registry} {data : Mapping} {mode : BuildMode} {o : BuildOutcome} {t : Tree} {stats : ExpansionStats}

/-- **Every payload of a built and expanded tree is proper.** -/
theorem proper_of_expand (hdata : ∀ e ∈ data, e.2.repeatsKey = false) (h : build r mode data = .ok o)
    (he : o.tree.expand = some (t, .ok stats)) : ∀ x ∈ t.preorder, (t.node x).payload.Proper := by
  exact content_of_expand (G := fun c => c.payload.Proper) h he Payload.proper_placeholder
    (fun e hmem pl hpl => Payload.proper_of_read_value (hdata e hmem) hpl) id fun hc => hc.clearInstances

/-- **A merge keeps the payloads of the base proper.** -/
theorem proper_of_merge {base overlay : Tree} (hbase : ∀ x < base.count, (base.node x).payload.Proper)
    (hoverlay : ∀ x ∈ overlay.preorder, (overlay.node x).payload.Proper) :
    ∀ x < base.count, ((Tree.merge r base overlay).1.node x).payload.Proper := by
  intro x hx
  obtain ⟨-, hrefined⟩ :=
    Tree.merge_refined (r := r) (D := Payload.Proper) (b := base) (fun x hmem _ => hoverlay x hmem) x hx
  show ((Tree.merge r base overlay).1.node x).content.payload.Proper
  generalize ((Tree.merge r base overlay).1.node x).content = c at hrefined
  induction hrefined with
  | kept => exact hbase x hx
  | refined _ hp hm ih => exact Payload.proper_of_refine ih hp hm

end SignalCatalog
