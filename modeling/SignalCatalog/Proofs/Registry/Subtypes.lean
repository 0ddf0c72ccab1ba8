import SignalCatalog.Proofs.Registry.Known
/-!
# Values of subtypes

The subtypes of a datatype are declared by name, and its values are told by its class, a sign and a width.  The two
agree: each declared subtype is of a class whose values are all values of the datatype's own class.  Struct types have
no subtypes and are none, so no registration changes this.
-/
namespace SignalCatalog

namespace TypeClass

variable {c c' : TypeClass} {v : Value}

/-- **The first class has all values of the second one**, as signs and widths tell. -/
def covers : TypeClass → TypeClass → Bool
  | .integer true bits, .integer true bits' => decide (bits' ≤ bits)
  | .integer true bits, .integer false bits' => decide (bits' < bits)
  | .integer false bits, .integer false bits' => decide (bits' ≤ bits)
  | .float, .integer _ _ | .float, .float | .numeric, .integer _ _ | .numeric, .float | .numeric, .numeric => true
  | .boolean, .boolean | .string, .string | .struct, .struct => true
  | _, _ => false

/-- **A class that covers another one has its values.** -/
theorem Has.of_covers (hc : c'.covers c = true) (h : c.Has v) : c'.Has v := by
  have hpow {m n : Nat} (hmn : m ≤ n) : (2 : Int) ^ m ≤ 2 ^ n := by exact_mod_cast Nat.pow_le_pow_right Nat.two_pos hmn
  unfold covers at hc
  split at hc
  · have hwider := hpow (Nat.sub_le_sub_right (of_decide_eq_true hc) 1)
    obtain - | ⟨hlow, hhigh⟩ := h
    exact .signed (by omega) (by omega)
  · -- an unsigned integer needs a bit more where there is a sign
    have hwider := hpow (Nat.le_sub_one_of_lt (of_decide_eq_true hc))
    obtain ⟨hlow, hhigh⟩ := h
    exact .signed (by omega) (by omega)
  · have hwider := hpow (of_decide_eq_true hc)
    obtain ⟨hlow, hhigh⟩ := h
    exact .unsigned hlow (by omega)
  · cases h <;> exact .float _
  · exact h
  · cases h <;> exact .numeric _
  · cases h
    exact .numeric _
  · exact h
  · exact h
  · exact h
  · exact h
  · cases hc

end TypeClass

namespace Datatypes

variable {d : Datatypes} {name name' datatype : String} {s t : Datatype} {v : Value} {allowed : List String}

/-- **Each declared subtype is covered** by the class of its datatype. -/
theorem covers_builtIn :
    ∀ t ∈ Datatype.builtIn, ∀ s ∈ Datatype.builtIn, s.name ∈ t.subtypes → t.typeClass.covers s.typeClass = true := by
  decide

theorem isQualified_subtypes : ∀ t ∈ Datatype.builtIn, ∀ n ∈ t.subtypes, QualifiedName.isQualified n = false := by
  decide

theorem covers_of_mem_subtypes (hs : s ∈ d.types) (ht : t ∈ d.types) (h : s.name ∈ t.subtypes) :
    t.typeClass.covers s.typeClass = true := by
  rw [d.types_eq, List.mem_append, List.mem_map] at hs ht
  rcases ht with ht | ⟨n, -, rfl⟩
  · rcases hs with hs | ⟨n, hn, rfl⟩
    · exact covers_builtIn t ht s hs h
    · have hdot := isQualified_subtypes t ht n h
      rw [d.qualified n hn] at hdot
      cases hdot
  · cases h

theorem mem_types_of_lookup? (h : d.lookup? name = some t) : t ∈ d.types ∧ t.name = Datatype.base name :=
  ⟨List.mem_of_find?_eq_some h, by simpa using List.find?_some h⟩

theorem require_eq_ok (h : d.require name = .ok t) : d.isKnown name = true ∧ d.lookup? name = some t := by
  rw [require] at h
  split at h
  · split at h
    · cases h
      exact ⟨‹_›, ‹_›⟩
    · cases h
  · cases h

theorem isSubtype_eq_ok (h : d.isSubtype name name' = .ok true) :
    d.isKnown name' = true ∧ ∃ t, d.lookup? name' = some t ∧ Datatype.base name ∈ t.subtypes := by
  obtain ⟨-, -, h⟩ := exists_of_bind_eq_ok h
  obtain ⟨t, ht, h⟩ := exists_of_bind_eq_ok h
  obtain ⟨hknown, hlookup⟩ := require_eq_ok ht
  exact ⟨hknown, t, hlookup, List.contains_iff_mem.1 (Except.ok.inj h)⟩

theorem isValue_eq_true_iff : d.isValue v name = .ok true ↔ d.isKnown name = true ∧ d.Holds name v := by
  constructor
  · intro h
    obtain ⟨t, ht, -⟩ := exists_of_bind_eq_ok h
    have hknown := (require_eq_ok ht).1
    exact ⟨hknown, ((isValue_eq_ok_iff hknown).1 h).1 rfl⟩
  · exact fun h => (isValue_eq_ok_iff h.1).2 (iff_of_true rfl h.2)

/-- **All values of one name are values of another one.** -/
def Within (d : Datatypes) (name name' : String) : Prop :=
  ∀ v, d.isValue v name = .ok true → d.isValue v name' = .ok true

theorem within_of_isSubtype (hname : Datatype.isArray name = false) (hname' : Datatype.isArray name' = false)
    (h : d.isSubtype name name' = .ok true) : d.Within name name' := by
  obtain ⟨hknown, t, ht, hmem⟩ := isSubtype_eq_ok h
  intro v hvalue
  obtain ⟨-, s, hs, hv⟩ := isValue_eq_true_iff.1 hvalue
  rw [hname, if_neg Bool.false_ne_true] at hv
  obtain ⟨hsmem, hsname⟩ := mem_types_of_lookup? hs
  refine isValue_eq_true_iff.2 ⟨hknown, t, ht, ?_⟩
  rw [hname', if_neg Bool.false_ne_true]
  exact hv.of_covers (covers_of_mem_subtypes hsmem (mem_types_of_lookup? ht).1 (hsname ▸ hmem))

theorem isKnown_of_base (harray : Datatype.isArray (Datatype.base name) = false)
    (h : d.isKnown (Datatype.base name) = true) :
    d.isKnown name = true := by
  rw [isKnown_iff_mem_names, Datatype.base_of_not_isArray harray] at h
  exact isKnown_iff_mem_names.2 h

theorem isValue_iff_base (h : d.isKnown name = true) : d.isValue v name = .ok true ↔
    (Datatype.isArray name = false ∧ d.isValue v (Datatype.base name) = .ok true) ∨
      (Datatype.isArray name = true ∧ ∃ items, v = .list items ∧ ∀ item ∈ items,
        d.isValue item (Datatype.base name) = .ok true) := by
  obtain ⟨harray, t, ht⟩ := isKnown_iff.1 h
  have hbase (v : Value) : d.isValue v (Datatype.base name) = .ok true ↔ t.typeClass.Has v := by
    simp [isValue_eq_true_iff, isKnown_base h, Holds, lookup?_base h, ht, harray]
  simp only [hbase, isValue_eq_true_iff, h, Holds, ht]
  cases Datatype.isArray name <;> simp

theorem Within.of_base (hname' : d.isKnown name' = true) (hform : Datatype.isArray name = Datatype.isArray name')
    (h : d.Within (Datatype.base name) (Datatype.base name')) : d.Within name name' := by
  intro v hv
  rw [isValue_iff_base (isValue_eq_true_iff.1 hv).1, hform] at hv
  rw [isValue_iff_base hname']
  refine hv.imp (fun hscalar => ⟨hscalar.1, h v hscalar.2⟩) ?_
  rintro ⟨harray, items, rfl, hitems⟩
  exact ⟨harray, items, rfl, fun item hitem => h item (hitems item hitem)⟩

theorem exists_of_allowsBase (h : Units.allowsBase d name allowed = .ok true) :
    ∃ a ∈ allowed, Datatype.base a = name ∨ d.isSubtype name (Datatype.base a) = .ok true := by
  induction allowed with
  | nil => cases h
  | cons a allowed ih =>
    rw [Units.allowsBase] at h
    split at h
    · exact ⟨a, List.mem_cons_self, .inl ‹_›⟩
    · obtain ⟨b, hb, h⟩ := exists_of_bind_eq_ok h
      cases b with
      | true => exact ⟨a, List.mem_cons_self, .inr hb⟩
      | false =>
        obtain ⟨a', ha', h⟩ := ih h
        exact ⟨a', List.mem_cons_of_mem _ ha', h⟩

end Datatypes

namespace Registry

variable {r r' : Registry} {unit : MeasureUnit} {ops : List Operation}

/-- **What units allow are scalar datatypes and arrays of them**: no registration accepts an array of arrays, and what
is forgotten later keeps its name. -/
def AllowedFlat (r : Registry) : Prop :=
  ∀ e ∈ r.units.units, ∀ a ∈ e.2.allowed, Datatype.isArray (Datatype.base a) = false

theorem AllowedFlat.registerUnit (h : AllowedFlat r) (hok : r.registerUnit unit = .ok r') : AllowedFlat r' := by
  obtain ⟨-, hallowed, rfl⟩ := registerUnit_eq_ok_iff.1 hok
  intro e he a ha
  rcases Table.mem_insert he with rfl | he
  · exact (Datatypes.isKnown_iff.1 (hallowed a ha)).1
  · exact h e he a ha

theorem allowedFlat_after (ops : List Operation) : AllowedFlat (after ops) := by
  have hempty : AllowedFlat .empty := fun e he => by cases he
  induction ops using List.reverseRecOn with
  | nil => exact hempty
  | append_singleton ops op ih =>
    rw [after_concat]
    refine run_induction (P := AllowedFlat) (fun h hok => ?_) (fun name q h => h) AllowedFlat.registerUnit
      hempty op (fun _ => ih) ih
    obtain ⟨d, -, hr⟩ := exists_of_bind_eq_ok hok
    cases hr
    exact h

/-- **A unit is given to a datatype** whose values are values of one that the unit allows, array suffixes left aside. -/
theorem AllowedFlat.exists_within (h : AllowedFlat r) {e : String × MeasureUnit}
    (he : e ∈ r.units.units) {datatype : String} (hknown : r.datatypes.isKnown datatype = true)
    (hok : Units.isCompatible r.datatypes e.2 datatype = .ok true) :
    ∃ a ∈ e.2.allowed, r.datatypes.Within (Datatype.base datatype) (Datatype.base a) ∧
      (Datatype.isArray datatype = Datatype.isArray a → r.datatypes.Within datatype a) := by
  obtain ⟨a, ha, hallows⟩ := Datatypes.exists_of_allowsBase hok
  have hflat := h e he a ha
  have hbase : r.datatypes.isKnown (Datatype.base a) = true ∧
      r.datatypes.Within (Datatype.base datatype) (Datatype.base a) := by
    rcases hallows with heq | hsubtype
    · rw [heq]
      exact ⟨Datatypes.isKnown_base hknown, fun _ hv => hv⟩
    · exact ⟨(Datatypes.isSubtype_eq_ok hsubtype).1,
        Datatypes.within_of_isSubtype (Datatypes.isKnown_iff.1 hknown).1 hflat hsubtype⟩
  exact ⟨a, ha, hbase.2, fun hform => hbase.2.of_base (Datatypes.isKnown_of_base hflat hbase.1) hform⟩

/-- **Subtypes are subsets.**  Whatever was registered and forgotten: a value of a scalar datatype is a value of every
scalar datatype that has it as a subtype.  So where a registered unit may be given to a known datatype, there is one
among those that it allows which has all values of the datatype, of the scalar ones in any case and of the datatype
itself where both or neither are arrays. -/
theorem subtypes_semantic (ops : List Operation) :
    (∀ candidate base, Datatype.isArray candidate = false → Datatype.isArray base = false →
      (after ops).datatypes.isSubtype candidate base = .ok true →
      ∀ v, (after ops).datatypes.isValue v candidate = .ok true →
        (after ops).datatypes.isValue v base = .ok true) ∧
    (∀ e ∈ (after ops).units.units, ∀ datatype, (after ops).datatypes.isKnown datatype = true →
      Units.isCompatible (after ops).datatypes e.2 datatype = .ok true → ∃ a ∈ e.2.allowed,
        (∀ v, (after ops).datatypes.isValue v (Datatype.base datatype) = .ok true →
          (after ops).datatypes.isValue v (Datatype.base a) = .ok true) ∧
        (Datatype.isArray datatype = Datatype.isArray a → ∀ v, (after ops).datatypes.isValue v datatype = .ok true →
          (after ops).datatypes.isValue v a = .ok true)) :=
  ⟨fun _ _ hcandidate hbase h => Datatypes.within_of_isSubtype hcandidate hbase h,
    fun _ he _ hknown hok => (allowedFlat_after ops).exists_within he hknown hok⟩

def gauge : List Operation :=
  [.registerType "Types.Span", .registerQuantity "length" { definition := "extent" }, .registerUnit metres]

/-- **Bytes are doubles**, and arrays of bytes can be given metres. -/
theorem gauge_bytes : (after gauge).datatypes.isSubtype "uint8" "double" = .ok true ∧
    (after gauge).datatypes.isValue (.number (.int 255)) "uint8" = .ok true ∧
    (after gauge).datatypes.isValue (.number (.int 255)) "double" = .ok true ∧
    ("m", metres) ∈ (after gauge).units.units ∧ (after gauge).datatypes.isKnown "uint8[]" = true ∧
    Units.isCompatible (after gauge).datatypes metres "uint8[]" = .ok true ∧
    ∃ a ∈ metres.allowed, ∀ v, (after gauge).datatypes.isValue v "uint8" = .ok true →
      (after gauge).datatypes.isValue v (Datatype.base a) = .ok true := by
  have hsubtype : (after gauge).datatypes.isSubtype "uint8" "double" = .ok true := by decide +kernel
  have hbyte : (after gauge).datatypes.isValue (.number (.int 255)) "uint8" = .ok true := by decide +kernel
  have hunit : ("m", metres) ∈ (after gauge).units.units := by decide +kernel
  have hknown : (after gauge).datatypes.isKnown "uint8[]" = true := by decide +kernel
  have hok : Units.isCompatible (after gauge).datatypes metres "uint8[]" = .ok true := by decide +kernel
  obtain ⟨hvalues, hunits⟩ := subtypes_semantic gauge
  obtain ⟨a, ha, hbytes, -⟩ := hunits _ hunit _ hknown hok
  exact ⟨hsubtype, hbyte, hvalues _ _ (by decide) (by decide) hsubtype _ hbyte, hunit, hknown, hok, a, ha, hbytes⟩

end Registry
end SignalCatalog
