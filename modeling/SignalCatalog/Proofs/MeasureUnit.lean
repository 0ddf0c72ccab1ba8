import SignalCatalog.MeasureUnit
import SignalCatalog.Proofs.Datatype
/-!
# Units of signals

A unit whose datatypes are all known answers for every known datatype whether a signal of it may be given the unit.
-/
namespace SignalCatalog

/-- **What a unit can be given to**: signals of a datatype that it allows, or that a datatype it allows has as a
declared subtype.  Array suffixes are left aside. -/
def MeasureUnit.Admits (unit : MeasureUnit) (d : Datatypes) (datatype : String) : Prop :=
  ∃ a ∈ unit.allowed, Datatype.base a = Datatype.base datatype ∨
    ∃ t, d.lookup? a = some t ∧ Datatype.base datatype ∈ t.subtypes

theorem Table.mem_of_find? {α : Type} {t : Table α} {name : String} {a : α} (h : t.find? name = some a) :
    (name, a) ∈ t := by
  obtain ⟨e, he, rfl⟩ := Option.map_eq_some_iff.1 h
  have hname := List.find?_some he
  rw [beq_iff_eq] at hname
  exact hname ▸ List.mem_of_find?_eq_some he

namespace Units

variable {d : Datatypes} {base datatype : String} {unit : MeasureUnit}

theorem exists_of_lookup? {u : Units} {name : String} (h : u.lookup? name = some unit) : ∃ e ∈ u.units, e.2 = unit := by
  unfold Units.lookup? at h
  cases hfind : u.units.find? name with
  | some found =>
    rw [hfind] at h
    cases h
    exact ⟨_, Table.mem_of_find? hfind, rfl⟩
  | none =>
    rw [hfind] at h
    obtain ⟨symbol, -, hsymbol⟩ := Option.bind_eq_some_iff.1 h
    exact ⟨_, Table.mem_of_find? hsymbol, rfl⟩

theorem allowsBase_eq_ok_iff (hbase : d.isKnown base = true) (harray : Datatype.isArray base = false) :
    ∀ allowed : List String, (∀ a ∈ allowed, d.isKnown a = true) → ∀ b, allowsBase d base allowed = .ok b ↔
      (b = true ↔ ∃ a ∈ allowed, Datatype.base a = base ∨ ∃ t, d.lookup? a = some t ∧ base ∈ t.subtypes)
  | [], _, b => by cases b <;> simp [allowsBase]
  | a :: rest, hknown, b => by
    obtain ⟨ha, hrest⟩ := List.forall_mem_cons.1 hknown
    have ih := allowsBase_eq_ok_iff hbase harray rest hrest b
    obtain ⟨-, t, ht⟩ := Datatypes.isKnown_iff.1 ha
    have hsubtype :=
      Datatypes.isSubtype_of_isKnown hbase (Datatypes.isKnown_base ha) ((Datatypes.lookup?_base ha).trans ht)
    rw [Datatype.base_of_not_isArray harray] at hsubtype
    unfold allowsBase
    rw [hsubtype]
    by_cases heq : Datatype.base a = base
    · cases b <;> simp [heq, pure, Except.pure]
    · by_cases hmem : base ∈ t.subtypes
      · cases b <;> simp [heq, ht, hmem, bind, Except.bind, pure, Except.pure]
      · simp [heq, ht, hmem, bind, Except.bind, ih]

/-- **Compatibility is decided** by what the unit admits. -/
theorem isCompatible_eq_ok_iff (hunit : ∀ a ∈ unit.allowed, d.isKnown a = true)
    (hknown : d.isKnown datatype = true) (b : Bool) :
    isCompatible d unit datatype = .ok b ↔ (b = true ↔ unit.Admits d datatype) :=
  allowsBase_eq_ok_iff (Datatypes.isKnown_base hknown) (Datatypes.isKnown_iff.1 hknown).1 unit.allowed hunit b

end Units
end SignalCatalog
