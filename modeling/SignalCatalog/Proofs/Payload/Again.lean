import SignalCatalog.Proofs.Payload.Refine
/-!
# Refining once more

What a payload writes into a refined payload is there when it is written again, and what it leaves out is written and
read once more.  So refining again changes nothing just where no field is changed by being written and read.
-/
namespace SignalCatalog
namespace Payload

variable {r : Registry} {m : Mapping} {b o p : Payload} {key : Key} {f : Field} {v w : Value}

/-! ## Values with each key once -/

/-- The values of a field have no mapping with a repeated key. -/
def Field.Distinct : Field → Prop
  | .values (some l) => ∀ v ∈ l, v.repeatsKey = false
  | .value (some v) => v.repeatsKey = false
  | _ => True

/-- **What a payload that was read against a registry satisfies.** -/
structure Checked (r : Registry) (p : Payload) : Prop extends p.Proper where
  valid : p.validate r = .ok ()
  distinct : ∀ key, (p.get key).Distinct

theorem repeatsKey_of_readValue (h : v.readValue = .ok w) : w.repeatsKey = false := by
  rw [Value.readValue] at h
  split at h
  · cases h
  · rename_i hdistinct
    cases h
    simpa using hdistinct

theorem repeatsKey_of_mapM_readValue {l l' : List Value} (h : l.mapM Value.readValue = .ok l') :
    ∀ w ∈ l', w.repeatsKey = false := by
  induction l generalizing l' with
  | nil =>
    cases h
    simp
  | cons v l ih =>
    rw [List.mapM_cons] at h
    obtain ⟨w, hw, h⟩ := exists_of_bind_eq_ok h
    obtain ⟨rest, hrest, h⟩ := exists_of_bind_eq_ok h
    cases h
    exact List.forall_mem_cons.2 ⟨repeatsKey_of_readValue hw, ih hrest⟩

theorem exists_of_field {α : Type} {read : Value → Except Mismatch α} {name : String} {a : α}
    (h : field read m name = .ok (some a)) :
    ∃ v, m.get? name = some v ∧ v ≠ .null ∧ read v = .ok a := by
  have hgives : m.Gives name := by
    by_contra hnot
    rw [field_of_not_gives hnot] at h
    cases h
  obtain ⟨v, hv, hnull⟩ := hgives
  obtain ⟨a', ha, heq⟩ := field_eq_ok hv hnull h
  cases heq
  exact ⟨v, hv, hnull, ha⟩

theorem distinct_of_keyRead (h : key.read m = .ok f) : f.Distinct := by
  cases key with
  | allowed =>
    obtain ⟨x, hx, rfl⟩ := exists_of_map_eq_ok h
    cases x with
    | none => trivial
    | some l =>
      obtain ⟨v, -, -, hv⟩ := exists_of_field hx
      obtain ⟨items, -, hitems⟩ := exists_of_bind_eq_ok hv
      exact repeatsKey_of_mapM_readValue hitems
  | default =>
    obtain ⟨x, hx, rfl⟩ := exists_of_map_eq_ok h
    cases x with
    | none => trivial
    | some w =>
      obtain ⟨v, -, -, hv⟩ := exists_of_field hx
      exact repeatsKey_of_readValue hv
  | _ =>
    obtain ⟨x, -, rfl⟩ := exists_of_map_eq_ok h
    trivial

theorem validate_of_read {v : Value} (h : read r v = .ok p) : p.validate r = .ok () := by
  rw [read] at h
  split at h
  · cases h
  · obtain ⟨p', -, h⟩ := exists_of_bind_eq_ok h
    obtain ⟨⟨⟩, hvalid, h⟩ := exists_of_bind_eq_ok h
    cases h
    exact hvalid

theorem checked_of_read (hm : m.Keyed) (h : read r (.mapping m) = .ok p) : p.Checked r where
  toProper := proper_of_read hm h
  valid := validate_of_read h
  distinct := by
    intro key
    by_cases hof : key.IsOf p.kind
    · exact distinct_of_keyRead ((get_of_readFields (readFields_of_read h)).2 key hof)
    · rw [get_of_not_isOf hof]
      cases key <;> trivial

theorem checked_of_refine (hb : b.Proper) (ho : o.Proper) (h : refine r b o = .ok p) : p.Checked r :=
  checked_of_read (keyed_refinedEntries hb ho) h

theorem checked_of_read_value (hv : v.repeatsKey = false) (h : read r v = .ok p) : p.Checked r := by
  induction v using Value.induction with
  | mapping m =>
    rw [Value.repeatsKey, Value.repeatsKeyEntries_eq_false] at hv
    exact checked_of_read ⟨hv.1, fun e he => (hv.2 e he).1⟩ h
  | tagged tag v ih => exact ih hv h
  | _ => cases h

theorem checked_branch (description : String) : (branch description).Checked r where
  toProper := ⟨Mapping.keyed_nil, by simp [branch], by simp [get, branch, datatypeFields?]⟩
  valid := rfl
  distinct := fun key => by cases key <;> trivial

theorem Checked.clearInstances (h : p.Checked r) : p.clearInstances.Checked r := by
  obtain ⟨common, body⟩ := p
  cases body with
  | branch levels =>
    refine ⟨h.toProper.clearInstances, h.valid, fun key => ?_⟩
    by_cases hkey : key = .instances
    · rw [hkey]
      trivial
    · have hsame : (Payload.clearInstances ⟨common, .branch levels⟩).get key = Payload.get
          ⟨common, .branch levels⟩ key := by
        cases key <;> first | rfl | exact absurd rfl hkey
      rw [hsame]
      exact h.distinct key
  | _ => exact h

/-! ## Reading what is written -/

theorem readValue_of_distinct (h : v.reread.repeatsKey = false) : v.readValue = .ok v.reread := by
  rw [Value.readValue, h]
  rfl

theorem mapM_readValue_of_distinct {l : List Value} (h : ∀ v ∈ l, v.reread.repeatsKey = false) :
    l.mapM Value.readValue = .ok (l.map Value.reread) := by
  induction l with
  | nil => rfl
  | cons v l ih =>
    obtain ⟨hv, hrest⟩ := List.forall_mem_cons.1 h
    rw [List.mapM_cons, readValue_of_distinct hv, ih hrest]
    rfl

theorem field_of_read {α : Type} {read : Value → Except Mismatch α} {name : String} {a : α}
    (hm : m.get? name = some v) (hv : v ≠ .null) (hread : read v = .ok a) : field read m name = .ok (some a) := by
  rw [field, hm]
  cases v <;> first | exact absurd rfl hv | simp [hread]

theorem required_of_read {α : Type} {read : Value → Except Mismatch α} {name : String} {a : α}
    (hm : m.get? name = some v) (hv : v ≠ .null) (hread : read v = .ok a) : required read m name = .ok a := by
  rw [required, field_of_read hm hv hread]
  rfl

theorem exists_map_eq_ok {ε α β : Type} {x : Except ε α} {g : α → β} {a : α} (h : x = .ok a) :
    ∃ c, g <$> x = .ok c := by
  rw [h]
  exact ⟨g a, rfl⟩

theorem exists_read_of_written (hnonnull : p.get .default ≠ .value (some .null)) (hw : key.written (p.get key) = some w)
    (hm : m.get? key.name = some w) (hdistinct : (p.get key).rewritten.Distinct) : ∃ f, key.read m = .ok f := by
  cases key with
  | type =>
    obtain rfl : Value.string p.kind.name = w := Option.some.inj hw
    have hname : required Value.readString m "type" = .ok p.kind.name := required_of_read hm (by simp) rfl
    have hkind : readKind m = .ok p.kind := by
      simp only [readKind, hname, bind, Except.bind, Kind.ofName?_name]
      rfl
    exact exists_map_eq_ok hkind
  | description =>
    obtain rfl : Value.string p.common.description = w := Option.some.inj hw
    exact exists_map_eq_ok (required_of_read hm (by simp) rfl)
  | datatype =>
    obtain ⟨s, hs, rfl⟩ := Option.map_eq_some_iff.1 hw
    exact exists_map_eq_ok (required_of_read hm (by simp) rfl)
  | comment | deprecation | constUid | unit =>
    obtain ⟨s, hs, rfl⟩ := Option.map_eq_some_iff.1 hw
    exact exists_map_eq_ok (field_of_read hm (by simp) rfl)
  | min | max =>
    obtain ⟨n, hn, rfl⟩ := Option.map_eq_some_iff.1 hw
    exact exists_map_eq_ok (field_of_read hm (by simp) rfl)
  | arraysize =>
    obtain ⟨n, hn, rfl⟩ := Option.map_eq_some_iff.1 hw
    exact exists_map_eq_ok (field_of_read hm (by simp)
      (show Value.readCount (.number (.int n)) = .ok n by simp [Value.readCount, Value.untagged]))
  | delete =>
    obtain ⟨hb, rfl⟩ : p.common.delete = true ∧ Value.bool true = w := by simpa [Key.written, get] using hw
    exact exists_map_eq_ok (field_of_read hm (by simp) rfl)
  | instantiate =>
    obtain ⟨hb, rfl⟩ : p.common.instantiate = false ∧ Value.bool false = w := by simpa [Key.written, get] using hw
    exact exists_map_eq_ok (field_of_read hm (by simp) rfl)
  | fka =>
    obtain ⟨hne, rfl⟩ : p.common.fka ≠ [] ∧ strings p.common.fka = w := by simpa [Key.written, get] using hw
    exact exists_map_eq_ok (field_of_read hm (by simp [strings]) (readStrings_strings _))
  | allowed =>
    obtain ⟨l, hl, rfl⟩ := Option.map_eq_some_iff.1 hw
    rw [get, hl] at hdistinct
    have hread : Value.readValues (.list l) = .ok (l.map Value.reread) :=
      mapM_readValue_of_distinct fun v hv => hdistinct _ (List.mem_map_of_mem hv)
    exact exists_map_eq_ok (field_of_read hm (by simp) hread)
  | default =>
    have hw : p.datatypeFields?.bind (·.default) = some w := hw
    have hnull : w ≠ .null := by
      rintro rfl
      exact hnonnull (congrArg Field.value hw)
    rw [get, hw] at hdistinct
    exact exists_map_eq_ok (field_of_read hm hnull (readValue_of_distinct hdistinct))
  | instances =>
    obtain ⟨hne, rfl⟩ : p.instances ≠ [] ∧ Level.declaration p.instances = w := by simpa [Key.written, get] using hw
    have hm : m.get? "instances" = some (Level.declaration p.instances) := hm
    have hread : readInstances m = .ok (Level.redeclared p.instances) := by
      rw [readInstances, hm]
      simp only [Level.parse_declaration]
    exact exists_map_eq_ok hread

/-- **A field that is written is read as rewritten.** -/
theorem read_of_written (hnonnull : p.get .default ≠ .value (some .null)) (hw : key.written (p.get key) = some w)
    (hm : m.get? key.name = some w) (hdistinct : (p.get key).rewritten.Distinct) :
    key.read m = .ok (p.get key).rewritten := by
  obtain ⟨f, hf⟩ := exists_read_of_written hnonnull hw hm hdistinct
  rw [hf, rewritten_of_read hnonnull hw hm hf]

theorem read_of_get?_eq_none (hof : key.IsOf p.kind) (hnone : key.written (p.get key) = none)
    (hm : m.get? key.name = none) :
    key.read m = .ok key.absent := by
  have hfield {α : Type} (read : Value → Except Mismatch α) : field read m key.name = .ok none := by rw [field, hm]
  cases key with
  | type | description => cases hnone
  | datatype =>
    -- every kind that declares a datatype has one
    obtain ⟨common, body⟩ := p
    cases body with
    | branch => exact absurd (show Key.IsOf .datatype .branch from hof) (by decide)
    | struct => exact absurd (show Key.IsOf .datatype .struct from hof) (by decide)
    | attr | sensor | actuator | property => cases hnone
  | instances =>
    have hm : m.get? "instances" = none := hm
    rw [Key.read, readInstances, hm]
    rfl
  | comment | deprecation | constUid | unit => exact congrArg (Field.text <$> ·) (hfield Value.readString)
  | delete => exact congrArg ((fun b => Field.flag (b.getD false)) <$> ·) (hfield Value.readBool)
  | instantiate => exact congrArg ((fun b => Field.flag (b.getD true)) <$> ·) (hfield Value.readBool)
  | fka => exact congrArg ((fun l => Field.names (l.getD [])) <$> ·) (hfield Value.readStrings)
  | arraysize => exact congrArg (Field.count <$> ·) (hfield Value.readCount)
  | min | max => exact congrArg (Field.number <$> ·) (hfield Value.readNumber)
  | allowed => exact congrArg (Field.values <$> ·) (hfield Value.readValues)
  | default => exact congrArg (Field.value <$> ·) (hfield Value.readValue)

/-! ## Refining -/

theorem refine_of_read (hkind : p.kind = o.kind) (hvalid : p.validate r = .ok ())
    (hextra : p.common.extra = (refinedEntries b o).filter fun e => !isDeclared o.kind e.1)
    (hget : ∀ key : Key, key.IsOf o.kind → key.read (refinedEntries b o) = .ok (p.get key)) : refine r b o = .ok p := by
  rw [← hkind] at hextra hget
  exact read_of_readFields (readFields_of_get hextra hget) hvalid

theorem readFields_of_refine (h : refine r b o = .ok p) : readFields (refinedEntries b o) = .ok p :=
  readFields_of_read h

theorem isDeclared_of_same {k : Kind} (a c : Value) (h : a.same c = true) : (!isDeclared k c) = !isDeclared k a := by
  rw [isDeclared, isDeclared, Value.asString?_of_same h]

theorem filter_entries {entries : Mapping} (h : ∀ e ∈ entries, e ∈ p.flagEntries ∨ e ∈ p.fieldEntries) :
    entries.filter (fun e => !isDeclared p.kind e.1) = [] := by
  refine List.filter_eq_nil_iff.2 fun e he => ?_
  obtain ⟨key, hkey, hof⟩ := exists_of_mem_entries (h e he)
  rw [hkey, isDeclared_name.2 hof]
  simp

theorem filter_raw (hp : p.Proper) : p.raw.filter (fun e => !isDeclared p.kind e.1) = p.common.extra := by
  have hforeign : p.common.extra.filter (fun e => !isDeclared p.kind e.1) = p.common.extra :=
    List.filter_eq_self.2 fun e he => by simp [hp.foreign e he]
  rw [raw_eq_append hp, List.filter_append, List.filter_append, filter_entries fun e he => .inr he,
    filter_entries fun e he => .inl he, hforeign, List.nil_append, List.append_nil]

theorem dropForeign_self {k : Kind} : dropForeign k k m = m := if_pos rfl

/-- **A payload that refining it by another does not change**: no field is changed by being written and read, the
other's where it writes one and else its own. -/
structure Settled (p o : Payload) : Prop where
  written : ∀ key : Key, key.IsOf o.kind → o.get key ≠ key.absent → (o.get key).rewritten = p.get key
  kept : ∀ key : Key, key.IsOf o.kind → o.get key = key.absent → (p.get key).rewritten = p.get key

theorem refine_eq_self_iff (hp : p.Checked r) (ho : o.Proper) (hkind : p.kind = o.kind)
    (hextra : ∀ e ∈ o.common.extra, p.common.extra.lookup? e.1 = some e.2) : refine r p o = .ok p ↔ p.Settled o := by
  constructor
  · intro h
    obtain ⟨-, hget⟩ := get_of_readFields (readFields_of_refine h)
    rw [hkind] at hget
    exact ⟨fun key hof hne => (eq_of_written hp.toProper ho hof hne (hget key hof)).symm,
      fun key hof habsent => (eq_of_kept hp.toProper ho hof (hkind ▸ hof) habsent (hget key hof)).symm⟩
  · intro h
    refine refine_of_read hkind hp.valid ?_ fun key hof => ?_
    · have hraw := filter_raw hp.toProper
      rw [hkind] at hraw
      rw [refinedEntries, hkind, dropForeign_self, Mapping.filter_extend isDeclared_of_same, hraw, filter_raw ho,
        Mapping.extend_of_lookup? hextra]
    · have hm := get?_refinedEntries hp.toProper ho hof
      rw [if_pos (hkind ▸ hof)] at hm
      by_cases habsent : o.get key = key.absent
      · rw [habsent, key.written_absent, Option.none_or] at hm
        cases hw : key.written (p.get key) with
        | some w =>
          have hkept := h.kept key hof habsent
          exact (read_of_written hp.nonnull hw (hm.trans hw) (by rw [hkept]; exact hp.distinct key)).trans
            (congrArg _ hkept)
        | none =>
          rw [written_eq_none.1 hw]
          exact read_of_get?_eq_none (hkind ▸ hof) hw (hm.trans hw)
      · obtain ⟨w, hw⟩ := Option.ne_none_iff_exists'.1 (mt written_eq_none.1 habsent)
        rw [hw, Option.some_or] at hm
        have hwritten := h.written key hof habsent
        exact (read_of_written ho.nonnull hw hm (by rw [hwritten]; exact hp.distinct key)).trans (congrArg _ hwritten)

/-- **A refined payload has what the other wrote**, so only the fields that the other leaves out can change when that is
done again. -/
theorem refine_again_iff (hb : b.Proper) (ho : o.Proper) (h : refine r b o = .ok p) :
    (refine r p o = .ok p ↔ p.Settled o) ∧
      (p.Settled o ↔ ∀ key : Key, key.IsOf o.kind → o.get key = key.absent → (p.get key).rewritten = p.get key) := by
  obtain ⟨hextra, hget⟩ := get_of_readFields (readFields_of_refine h)
  have hkind : p.kind = o.kind := by
    have htype := eq_of_written hb ho (Key.isOf_type _) (by simp [get, Key.absent]) (hget .type (Key.isOf_type _))
    exact Kind.name_inj (Option.some.inj (Field.text.inj htype))
  rw [hkind] at hextra hget
  refine ⟨refine_eq_self_iff (checked_of_refine hb ho h) ho hkind fun e he => ?_,
    fun h => h.kept, fun h => ⟨fun key hof hne => (eq_of_written hb ho hof hne (hget key hof)).symm, h⟩⟩
  have hkey := ho.keyed.keys e he
  rw [hextra, Mapping.lookup?_filter fun e' _ hsame => by rw [isDeclared_of_same _ _ hsame, ho.foreign e he]; rfl,
    lookup?_refinedEntries_extra hb ho hkey (ho.foreign e he),
    (Mapping.lookup?_eq_some ho.keyed hkey).2 ⟨e, he, Value.same_refl _, rfl⟩, Option.some_or]

theorem refine_self_iff (hp : p.Checked r) : refine r p p = .ok p ↔ p.Settled p :=
  refine_eq_self_iff hp hp.toProper rfl fun e he =>
    (Mapping.lookup?_eq_some hp.keyed (hp.keyed.keys e he)).2 ⟨e, he, Value.same_refl _, rfl⟩

/-- **A placeholder refined** becomes just the other payload where that is settled in itself. -/
theorem refine_placeholder_iff (hp : p.Checked r) : refine r .placeholder p = .ok p ↔ p.Settled p := by
  have hread (key : Key) (hof : key.IsOf p.kind) :
      (refinedEntries .placeholder p).get? key.name = key.written (p.get key) := by
    rw [get?_refinedEntries proper_placeholder hp.toProper hof]
    cases hw : key.written (p.get key) with
    | some w => rfl
    | none =>
      -- a placeholder writes its kind and description, as every payload does
      cases key <;> first | cases hw | rfl
  constructor
  · intro h
    obtain ⟨-, hget⟩ := get_of_readFields (readFields_of_refine h)
    exact ⟨fun key hof hne => (eq_of_written proper_placeholder hp.toProper hof hne (hget key hof)).symm,
      fun key _ habsent => by rw [habsent, key.rewritten_absent]⟩
  · intro h
    refine refine_of_read rfl hp.valid ?_ fun key hof => ?_
    · have hnone : (dropForeign placeholder.kind p.kind placeholder.raw).filter
          (fun e => !isDeclared p.kind e.1) = [] := by
        cases p.kind <;> rfl
      rw [refinedEntries, Mapping.filter_extend isDeclared_of_same, hnone, filter_raw hp.toProper]
      exact (Mapping.ofPairs_of_keyed hp.keyed).symm
    · by_cases habsent : p.get key = key.absent
      · rw [habsent]
        exact read_of_get?_eq_none hof (by rw [habsent, key.written_absent])
          (by rw [hread key hof, habsent, key.written_absent])
      · obtain ⟨w, hw⟩ := Option.ne_none_iff_exists'.1 (mt written_eq_none.1 habsent)
        have hwritten := h.written key hof habsent
        rw [read_of_written hp.nonnull hw ((hread key hof).trans hw) (by rw [hwritten]; exact hp.distinct key),
          hwritten]

theorem settled_of_branch (hkind : p.kind = .branch) (hinst : p.instances = []) : p.Settled p := by
  have hrewritten : ∀ key : Key, key.IsOf p.kind → (p.get key).rewritten = p.get key := by
    intro key hof
    rw [hkind] at hof
    cases key with
    | instances => rw [get, hinst]; rfl
    | allowed | default => exact absurd hof (by decide)
    | _ => rfl
  exact ⟨fun key hof _ => hrewritten key hof, fun key hof _ => hrewritten key hof⟩

end Payload

theorem checked_of_expand {r : Registry} {data : Mapping} {mode : BuildMode} {o : BuildOutcome} {t : Tree}
    {stats : ExpansionStats} (hdata : ∀ e ∈ data, e.2.repeatsKey = false) (h : build r mode data = .ok o)
    (he : o.tree.expand = some (t, .ok stats)) :
    ∀ x ∈ t.preorder, (t.node x).payload.Checked r := by
  exact content_of_expand (G := fun c => c.payload.Checked r) h he (Payload.checked_branch _)
    (fun e hmem pl hpl => Payload.checked_of_read_value (hdata e hmem) hpl) id fun hc => hc.clearInstances

end SignalCatalog
