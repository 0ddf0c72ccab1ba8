import SignalCatalog.Proofs.MeasureUnit
import SignalCatalog.Registry.Load
/-!
# Registries in use

A registry is filled, read from and emptied by one operation after another.  An operation that fails leaves the registry
as it was, except that the entries of a definition file stay that stand before the failing one.
-/
namespace SignalCatalog

namespace Table

variable {α : Type} {t : Table α} {name x : String} {a : α}

theorem find?_insert : (t.insert name a).find? x = if name = x then some a else t.find? x := by
  induction t with
  | nil => by_cases h : name = x <;> simp [insert, find?, h]
  | cons e t ih =>
    obtain ⟨n, b⟩ := e
    simp only [find?] at ih ⊢
    rw [insert]
    by_cases hn : n = name
    · by_cases h : name = x <;> simp [hn, h]
    · rw [if_neg (by simpa using hn)]
      by_cases hx : n = x
      · have h : name ≠ x := fun h => hn (hx.trans h.symm)
        simp [hx, h]
      · simp [hx, ih]

theorem mem_insert {e : String × α} (h : e ∈ t.insert name a) : e = (name, a) ∨ e ∈ t := by
  induction t with
  | nil => exact .inl (List.mem_singleton.1 h)
  | cons d t ih =>
    obtain ⟨n, b⟩ := d
    rw [insert] at h
    split at h
    · rename_i hn
      rw [beq_iff_eq] at hn
      rcases List.mem_cons.1 h with rfl | h
      · exact .inl (by rw [hn])
      · exact .inr (List.mem_cons_of_mem _ h)
    · rcases List.mem_cons.1 h with rfl | h
      · exact .inr List.mem_cons_self
      · exact (ih h).imp_right (List.mem_cons_of_mem _)

theorem has_iff : t.has name = true ↔ ∃ a, t.find? name = some a := Option.isSome_iff_exists

theorem has_insert : (t.insert name a).has x = true ↔ x = name ∨ t.has x = true := by
  rw [has_iff, has_iff, find?_insert]
  by_cases h : name = x
  · simp [h]
  · simp [h, Ne.symm h]

end Table

namespace Registry

/-- **An operation on a registry.** -/
inductive Operation where
  | registerType (name : String)
  | registerQuantity (name : String) (q : Quantity)
  | registerUnit (unit : MeasureUnit)
  | loadQuantities (text source : String)
  | loadUnits (text source : String)
  | loadQuantityFile (files : Files) (path : String)
  | loadUnitFile (files : Files) (path : String)
  | clearDynamic
  | reset
  deriving Repr

/-- The registry after a registration, which may have been refused. -/
def keep {ε : Type} (r : Registry) : Except ε Registry → Registry
  | .ok r' => r'
  | .error _ => r

/-- **What an operation leaves**, be it that it succeeds or fails. -/
def Operation.run (r : Registry) : Operation → Registry
  | registerType name => r.keep (r.registerType name)
  | registerQuantity name q => r.registerQuantity name q
  | registerUnit unit => r.keep (r.registerUnit unit)
  | loadQuantities text source => (r.loadQuantities text source).1
  | loadUnits text source => (r.loadUnits text source).1
  | loadQuantityFile files path => (Registry.loadQuantityFile files r path).1
  | loadUnitFile files path => (Registry.loadUnitFile files r path).1
  | clearDynamic => r.clearDynamic
  | reset => r.reset

/-- **A registry after some operations**, beginning with a new one. -/
def after (ops : List Operation) : Registry := ops.foldl Operation.run .empty

theorem after_concat (ops : List Operation) (op : Operation) : after (ops ++ [op]) = op.run (after ops) :=
  List.foldl_concat ..

variable {P : Registry → Prop} {r r' : Registry} {unit : MeasureUnit}
  {step : Registry → String × Value → Except UnitError Registry} {ops : List Operation}

/-! ## Registrations -/

/-- **Entries are registered one by one**: what every registration keeps, all of them keep, the failing one aside. -/
theorem registerAll_induction {α : Type} {step : Registry → α → Except UnitError Registry}
    (hstep : ∀ {r a r'}, P r → step r a = .ok r' → P r') (h : P r) (entries : List α) :
    P (registerAll step r entries).1 := by
  induction entries generalizing r with
  | nil => exact h
  | cons a entries ih =>
    rw [registerAll]
    split
    · rename_i hok
      exact ih (hstep h hok)
    · exact h

def definitions (text source : String) : List (String × Value) :=
  match Yaml.read text with
  | .ok document => (definitionEntries source document).toOption.getD []
  | .error _ => []

/-- **A load registers the entries of its text.** -/
theorem loadText_fst (text source : String) :
    (loadText step r text source).1 = (registerAll step r (definitions text source)).1 := by
  rw [loadText, definitions]
  cases Yaml.read text with
  | error e => rfl
  | ok document =>
    dsimp only
    cases definitionEntries source document with
    | error e => rfl
    | ok entries =>
      rw [Except.toOption, Option.getD_some]
      dsimp only
      rcases registerAll step r entries with ⟨r', _ | e⟩ <;> rfl

theorem loadText_induction (hstep : ∀ {r e r'}, P r → step r e = .ok r' → P r') (h : P r) (text source : String) :
    P (loadText step r text source).1 := by
  rw [loadText_fst]
  exact registerAll_induction (fun h hok => hstep h hok) h _

theorem loadFile_induction {load : Registry → String → String → Loaded}
    (hload : ∀ text source, P (load r text source).1) (h : P r) (files : Files) (path : String) :
    P (loadFile load files r path).1 := by
  rw [loadFile]
  split
  · exact h
  · exact hload _ _

/-- **A unit is registered** if its quantity and its datatypes are there, and then under its symbol and its
long name. -/
theorem registerUnit_eq_ok_iff : r.registerUnit unit = .ok r' ↔
    r.units.quantities.has unit.quantity = true ∧ (∀ a ∈ unit.allowed, r.datatypes.isKnown a = true) ∧
      r' = { r with units := { r.units with
        aliases := if unit.name = unit.symbol then r.units.aliases else r.units.aliases.insert unit.name unit.symbol
        units := r.units.units.insert unit.symbol unit } } := by
  rw [registerUnit, Units.register]
  by_cases hquantity : r.units.quantities.has unit.quantity = true
  · rw [hquantity]
    cases hfind : unit.allowed.find? fun t => !r.datatypes.isKnown t with
    | some bad =>
      have hbad := List.find?_some hfind
      have hmem := List.mem_of_find?_eq_some hfind
      refine iff_of_false (by rintro ⟨⟩) fun ⟨_, hallowed, _⟩ => ?_
      rw [hallowed bad hmem] at hbad
      cases hbad
    | none =>
      have hallowed : ∀ a ∈ unit.allowed, r.datatypes.isKnown a = true := by simpa using List.find?_eq_none.1 hfind
      exact ⟨fun h => ⟨rfl, hallowed, (Except.ok.inj h).symm⟩, fun h => congrArg Except.ok h.2.2.symm⟩
  · refine iff_of_false ?_ fun h => hquantity h.1
    rw [Bool.not_eq_true] at hquantity
    rw [hquantity]
    rintro ⟨⟩

theorem takeUnit_eq_ok {e : String × Value} (h : r.takeUnit e = .ok r') :
    ∃ unit, MeasureUnit.read e.1 e.2 = .ok unit ∧ r.registerUnit unit = .ok r' := by
  rw [takeUnit] at h
  split at h
  · exact ⟨_, ‹_›, h⟩
  · cases h

theorem takeQuantity_eq_ok {e : String × Value} (h : r.takeQuantity e = .ok r') :
    ∃ q, r' = r.registerQuantity e.1 q := by
  rw [takeQuantity] at h
  split at h
  · cases h
    exact ⟨_, rfl⟩
  · cases h

/-- **What the registrations keep and a new registry has**, every registry has that is reached by them. -/
theorem run_induction (htype : ∀ {r name r'}, P r → r.registerType name = .ok r' → P r')
    (hquantity : ∀ {r} name q, P r → P (r.registerQuantity name q))
    (hunit : ∀ {r unit r'}, P r → r.registerUnit unit = .ok r' → P r') (hempty : P .empty) (op : Operation)
    (hop : op = .clearDynamic → P r.clearDynamic) (h : P r) : P (op.run r) := by
  have hquantities {r : Registry} (h : P r) (text source : String) : P (r.loadQuantities text source).1 :=
    loadText_induction (fun h hok => by
      obtain ⟨q, rfl⟩ := takeQuantity_eq_ok hok
      exact hquantity _ q h) h text source
  have hunits {r : Registry} (h : P r) (text source : String) : P (r.loadUnits text source).1 :=
    loadText_induction (fun h hok => by
      obtain ⟨unit, -, hok⟩ := takeUnit_eq_ok hok
      exact hunit h hok) h text source
  cases op with
  | registerType name =>
    rw [Operation.run]
    cases hok : r.registerType name with
    | ok r' => exact htype h hok
    | error e => exact h
  | registerQuantity name q => exact hquantity name q h
  | registerUnit unit =>
    rw [Operation.run]
    cases hok : r.registerUnit unit with
    | ok r' => exact hunit h hok
    | error e => exact h
  | loadQuantities text source => exact hquantities h text source
  | loadUnits text source => exact hunits h text source
  | loadQuantityFile files path => exact loadFile_induction (fun text source => hquantities h text source) h files path
  | loadUnitFile files path => exact loadFile_induction (fun text source => hunits h text source) h files path
  | clearDynamic => exact hop rfl
  | reset =>
    rw [Operation.run, reset_eq]
    exact hempty

end Registry
end SignalCatalog
