import Mathlib.Data.List.Induction
import SignalCatalog.Proofs.Payload.Valid
import SignalCatalog.Proofs.Registry.Operations
import SignalCatalog.Proofs.TypeTree.Registered
/-!
# What units refer to

A unit names its quantity and the datatypes it allows, and a long name stands for a symbol.  Nothing of this is checked
when a unit is read from the registry: it was registered before the unit, and no registration takes anything out.
-/
namespace SignalCatalog

namespace Datatypes

variable {d d' : Datatypes} {name : String}

theorem isKnown_iff_mem_names : d.isKnown name = true ↔ Datatype.isArray (Datatype.base name) = false ∧
    Datatype.base name ∈ d.names := by
  rw [isKnown, Bool.and_eq_true, Bool.not_eq_true', lookup?, isSome_find?_iff]

theorem isKnown_of_register (h : d.register name = .ok d') {x : String} (hx : d.isKnown x = true) :
    d'.isKnown x = true := by
  obtain ⟨-, hdynamic⟩ := register_eq_ok h
  obtain ⟨harray, hmem⟩ := isKnown_iff_mem_names.1 hx
  refine isKnown_iff_mem_names.2 ⟨harray, ?_⟩
  rw [names_eq, hdynamic, ← List.append_assoc, ← names_eq]
  exact List.mem_append_left _ hmem

end Datatypes

namespace Registry

variable {r r' : Registry} {unit : MeasureUnit} {ops : List Operation}

/-- **All that units refer to is there**: the quantity of a unit, the datatypes it allows, and the unit that a long name
stands for.  A unit is found by its own symbol. -/
structure Resolved (r : Registry) : Prop where
  symbol : ∀ e ∈ r.units.units, e.2.symbol = e.1
  quantity : ∀ e ∈ r.units.units, r.units.quantities.has e.2.quantity = true
  allowed : r.UnitsKnown
  named : ∀ e ∈ r.units.aliases, r.units.units.has e.2 = true

theorem resolved_empty : Resolved .empty where
  symbol _ h := nomatch h
  quantity _ h := nomatch h
  allowed _ h := nomatch h
  named _ h := nomatch h

theorem Resolved.registerType {name : String} (h : Resolved r) (hok : r.registerType name = .ok r') : Resolved r' := by
  obtain ⟨d, hd, hr⟩ := exists_of_bind_eq_ok hok
  cases hr
  exact ⟨h.symbol, h.quantity, fun e he a ha => Datatypes.isKnown_of_register hd (h.allowed e he a ha), h.named⟩

theorem Resolved.registerQuantity (h : Resolved r) (name : String) (q : Quantity) :
    Resolved (r.registerQuantity name q) :=
  ⟨h.symbol, fun e he => Table.has_insert.2 (.inr (h.quantity e he)), h.allowed, h.named⟩

theorem Resolved.registerUnit (h : Resolved r) (hok : r.registerUnit unit = .ok r') : Resolved r' := by
  obtain ⟨hquantity, hallowed, rfl⟩ := registerUnit_eq_ok_iff.1 hok
  have hunits {p : String × MeasureUnit → Prop} (hnew : p (unit.symbol, unit)) (hold : ∀ e ∈ r.units.units, p e) :
      ∀ e ∈ r.units.units.insert unit.symbol unit, p e :=
        fun e he => (Table.mem_insert he).elim (fun heq => heq ▸ hnew) (hold e)
  refine ⟨hunits rfl h.symbol, hunits hquantity h.quantity, hunits hallowed h.allowed,
    fun e he => Table.has_insert.2 ?_⟩
  change e ∈ (if unit.name = unit.symbol then r.units.aliases else r.units.aliases.insert unit.name unit.symbol) at he
  split at he
  · exact .inr (h.named e he)
  · rcases Table.mem_insert he with rfl | hold
    · exact .inl rfl
    · exact .inr (h.named e hold)

/-- **One operation** leaves all that is referred to.  Taking the struct types out alone does not: a unit may allow
one of them. -/
theorem Resolved.run (h : Resolved r) {op : Operation} (hop : op ≠ .clearDynamic) : Resolved (op.run r) :=
  run_induction Resolved.registerType (fun name q h => h.registerQuantity name q)
    Resolved.registerUnit resolved_empty op (fun heq => absurd heq hop) h

theorem resolved_after (hops : .clearDynamic ∉ ops) : Resolved (after ops) := by
  induction ops using List.reverseRecOn with
  | nil => exact resolved_empty
  | append_singleton ops op ih =>
    rw [List.mem_append, not_or] at hops
    rw [after_concat]
    exact (ih hops.1).run fun heq => hops.2 (heq ▸ List.mem_singleton_self _)

theorem Resolved.isCompatible (h : Resolved r) {e : String × MeasureUnit} (he : e ∈ r.units.units) {datatype : String}
    (hknown : r.datatypes.isKnown datatype = true) :
    ∃ b, Units.isCompatible r.datatypes e.2 datatype = .ok b ∧ (b = true ↔ e.2.Admits r.datatypes datatype) := by
  classical
  refine ⟨decide (e.2.Admits r.datatypes datatype), ?_, decide_eq_true_iff⟩
  exact (Units.isCompatible_eq_ok_iff (h.allowed e he) hknown _).2 decide_eq_true_iff

/-- **Units never dangle.**  Whatever was registered and loaded, also by loads that failed on the way, and whether or
not everything was forgotten in between: the quantity of every unit is registered, every long name stands for a
registered unit and every allowed datatype is known, so that a registered unit is decided about for every known
datatype, scalar or array. -/
theorem units_resolved (ops : List Operation) (hops : .clearDynamic ∉ ops) :
    Resolved (after ops) ∧ ∀ e ∈ (after ops).units.units, ∀ datatype, (after ops).datatypes.isKnown datatype = true →
      ∃ b, Units.isCompatible (after ops).datatypes e.2 datatype = .ok b ∧
      (b = true ↔ e.2.Admits (after ops).datatypes datatype) :=
  ⟨resolved_after hops, fun _ he _ hknown => (resolved_after hops).isCompatible he hknown⟩

def metres : MeasureUnit where
  symbol := "m"
  definition := "metres"
  name := "meter"
  quantity := "length"
  allowed := ["float", "Types.Span[]"]

def metresText : String :=
  "m:\n  definition: metres\n  unit: meter\n  quantity: length\n  allowed-datatypes: [float, 'Types.Span[]']\n"

def knotsText : String := "kn:\n  definition: knots\n  unit: knot\n  quantity: velocity\n  allowed-datatypes: [float]\n"

/-- A type, a quantity and two units, of which the second one is refused, as no velocity is known. -/
def survey : List Operation :=
  [.registerType "Types.Span", .loadQuantities "length:\n  definition: extent\n" "quantities.yaml",
    .loadUnits (metresText ++ knotsText) "units.yaml"]

theorem survey_resolved : .clearDynamic ∉ survey ∧ Resolved (after survey) ∧
    (after survey).units.units = [("m", metres)] ∧
    Units.isCompatible (after survey).datatypes metres "uint8[]" = .ok true := by
  have hops : .clearDynamic ∉ survey := by simp [survey]
  obtain ⟨hresolved, hdecided⟩ := units_resolved survey hops
  have hunits : (after survey).units.units = [("m", metres)] := by decide +kernel
  have hknown : (after survey).datatypes.isKnown "uint8[]" = true := by decide +kernel
  have hsubtype : metres.Admits (after survey).datatypes "uint8[]" :=
    ⟨"float", by decide, .inr ⟨⟨"float", .float, Datatype.integerNames⟩, by decide +kernel, by decide +kernel⟩⟩
  obtain ⟨b, hb, hadmits⟩ := hdecided ("m", metres) (hunits ▸ List.mem_singleton_self _) "uint8[]" hknown
  exact ⟨hops, hresolved, hunits, hadmits.2 hsubtype ▸ hb⟩

end Registry
end SignalCatalog
