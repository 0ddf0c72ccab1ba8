import Mathlib.Data.List.Induction
import SignalCatalog.Proofs.Registry.Operations
/-!
# Which unit a name gives

Units are found by symbol and, by way of a second table, by long name.  A unit that takes the symbol of another one
takes its place in the first table only: the long name of the other unit still stands for the symbol.
-/
namespace SignalCatalog

/-! ## The tables of units -/

namespace Units

variable {known earlier : List MeasureUnit} {u : Units} {unit : MeasureUnit} {x : String}

/-- **A long name that was overtaken**: it is no symbol, and since it was given last, its unit's symbol was given to a
unit of another long name. -/
def Outdated (known : List MeasureUnit) (x : String) : Prop :=
  (∀ w ∈ known, w.symbol ≠ x) ∧
    ∃ later v earlier, known = later ++ v :: earlier ∧ v.name = x ∧ (∀ w ∈ later, w.name ≠ x) ∧
    ∃ w ∈ later, w.symbol = v.symbol

/-- **Tables that tell what was registered**, the newest first: a symbol stands for the newest unit with it, and a long
name for the symbol of the newest unit with that name, if its name is not its symbol. -/
structure Tells (known : List MeasureUnit) (u : Units) : Prop where
  symbol (x : String) : u.units.find? x = known.find? fun v => v.symbol == x
  name (x : String) : u.aliases.find? x = (known.find? fun v => v.name == x && v.name != v.symbol).map (·.symbol)

theorem tells_nil : Tells [] {} := ⟨fun _ => rfl, fun _ => rfl⟩

theorem Tells.cons (h : Tells known u) : Tells (unit :: known) { u with
    aliases := if unit.name = unit.symbol then u.aliases else u.aliases.insert unit.name unit.symbol
    units := u.units.insert unit.symbol unit } where
  symbol x := by
    rw [Table.find?_insert, h.symbol]
    by_cases hx : unit.symbol = x
    · rw [if_pos hx, List.find?_cons_of_pos (by simpa using hx)]
    · rw [if_neg hx, List.find?_cons_of_neg (by simpa using hx)]
  name x := by
    by_cases hname : unit.name = unit.symbol
    · rw [if_pos hname, h.name, List.find?_cons_of_neg (by simp [hname])]
    · rw [if_neg hname, Table.find?_insert, h.name]
      by_cases hx : unit.name = x
      · rw [if_pos hx, List.find?_cons_of_pos (by simpa [hx] using hx ▸ hname), Option.map_some]
      · rw [if_neg hx, List.find?_cons_of_neg (by simp [hx])]

/-- **A look-up** finds the newest unit with the symbol; if there is none, it goes by the symbol of the newest unit with
the long name. -/
theorem Tells.lookup? (h : Tells known u) (x : String) : u.lookup? x = match known.find? fun v => v.symbol == x with
    | some v => some v
    | none => (known.find? fun v => v.name == x).bind fun v => known.find? fun w => w.symbol == v.symbol := by
  rw [Units.lookup?, h.symbol]
  cases hsymbol : known.find? fun v => v.symbol == x with
  | some v => rfl
  | none =>
    have hname : (known.find? fun v => v.name == x && v.name != v.symbol) = known.find? fun v => v.name == x := by
      rw [← List.head?_filter, ← List.head?_filter]
      refine congrArg _ (List.filter_congr fun v hv => ?_)
      have hv : v.symbol ≠ x := by simpa using List.find?_eq_none.1 hsymbol v hv
      by_cases hx : v.name = x
      · simp [hx, hv.symm]
      · simp [hx]
    dsimp only
    rw [h.name, hname, Option.bind_map]
    exact congrArg _ (funext fun v => h.symbol v.symbol)

theorem Outdated.lookup? (houtdated : Outdated known x) (h : Tells known u) (hx : u.lookup? x = some unit) :
    ¬(x = unit.symbol ∨ x = unit.name) := by
  obtain ⟨hsymbol, later, v, earlier, hknown, hv, hlater, w, hw, hwv⟩ := houtdated
  have hname : (known.find? fun v => v.name == x) = some v :=
    List.find?_eq_some_iff_append.2 ⟨by simpa using hv, later, earlier, hknown, by simpa using hlater⟩
  have hover : ((later.find? fun w => w.symbol == v.symbol).isSome) = true :=
    List.find?_isSome.2 ⟨w, hw, by simpa using hwv⟩
  obtain ⟨w', hw'⟩ := Option.isSome_iff_exists.1 hover
  rw [h.lookup?, List.find?_eq_none.2 (by simpa using hsymbol), hname, Option.bind_some, hknown,
    List.find?_append, hw'] at hx
  cases hx
  have hmem := List.mem_of_find?_eq_some hw'
  exact not_or.2 ⟨(hsymbol unit (hknown ▸ List.mem_append_left _ hmem)).symm, (hlater unit hmem).symm⟩

theorem Tells.outdated (h : Tells known u) (hx : u.lookup? x = some unit)
    (huntrue : ¬(x = unit.symbol ∨ x = unit.name)) :
    Outdated known x := by
  rw [h.lookup?] at hx
  cases hsymbol : known.find? fun v => v.symbol == x with
  | some v =>
    rw [hsymbol] at hx
    cases hx
    have hunit : unit.symbol = x := by simpa using List.find?_some hsymbol
    exact absurd (.inl hunit.symm) huntrue
  | none =>
    rw [hsymbol] at hx
    obtain ⟨v, hv, hunit⟩ := Option.bind_eq_some_iff.1 hx
    obtain ⟨hvx, later, earlier, hknown, hlater⟩ := List.find?_eq_some_iff_append.1 hv
    rw [beq_iff_eq] at hvx
    refine ⟨by simpa using hsymbol, later, v, earlier, hknown, hvx, by simpa using hlater, ?_⟩
    rw [hknown, List.find?_append] at hunit
    cases hover : later.find? fun w => w.symbol == v.symbol with
    | some w => exact ⟨w, List.mem_of_find?_eq_some hover, by simpa using List.find?_some hover⟩
    | none =>
      rw [hover, Option.none_or, List.find?_cons_of_pos (by simp)] at hunit
      cases hunit
      exact absurd (.inr hvx.symm) huntrue

/-- **What is found is truly named so**, but for long names that were overtaken. -/
theorem Tells.truthful_iff (h : Tells known u) (hx : u.lookup? x = some unit) :
    (x = unit.symbol ∨ x = unit.name) ↔ ¬Outdated known x :=
  ⟨fun htrue houtdated => houtdated.lookup? h hx htrue, fun hcurrent => not_not.1 (mt (h.outdated hx) hcurrent)⟩

/-- **Right after its registration** a unit is found by its symbol, and by its long name if that is no other
unit's symbol. -/
theorem Tells.newest (h : Tells (unit :: earlier) u) : u.lookup? unit.symbol = some unit ∧
    (u.lookup? unit.name = some unit ↔ unit.name = unit.symbol ∨ ∀ v ∈ earlier, v.symbol ≠ unit.name) := by
  have hsymbol : u.lookup? unit.symbol = some unit := by rw [h.lookup?, List.find?_cons_of_pos (by simp)]
  refine ⟨hsymbol, ?_⟩
  by_cases hname : unit.name = unit.symbol
  · exact iff_of_true (hname ▸ hsymbol) (.inl hname)
  · rw [or_iff_right hname, h.lookup?, List.find?_cons_of_neg (by simpa using Ne.symm hname)]
    cases hother : earlier.find? fun v => v.symbol == unit.name with
    | some v =>
      have hv : v.symbol = unit.name := by simpa using List.find?_some hother
      refine iff_of_false (fun heq => hname ?_) fun hnone => hnone v (List.mem_of_find?_eq_some hother) hv
      cases heq
      exact hv.symm
    | none =>
      refine iff_of_true ?_ (by simpa using hother)
      dsimp only
      rw [List.find?_cons_of_pos (by simp), Option.bind_some, List.find?_cons_of_pos (by simp)]

theorem Tells.lookup?_eq_none_iff (h : Tells known u) :
    u.lookup? x = none ↔ ∀ v ∈ known, v.symbol ≠ x ∧ v.name ≠ x := by
  rw [h.lookup?]
  cases hsymbol : known.find? fun v => v.symbol == x with
  | some v =>
    exact iff_of_false (by simp) fun hnone => (hnone v (List.mem_of_find?_eq_some hsymbol)).1
      (by simpa using List.find?_some hsymbol)
  | none =>
    cases hname : known.find? fun v => v.name == x with
    | some v =>
      have hv := List.mem_of_find?_eq_some hname
      have hfound : (known.find? fun w => w.symbol == v.symbol) ≠ none :=
        fun hnone => List.find?_eq_none.1 hnone v hv (by simp)
      exact iff_of_false hfound fun hnone => (hnone v hv).2 (by simpa using List.find?_some hname)
    | none =>
      have hsymbol : ∀ v ∈ known, v.symbol ≠ x := by simpa using hsymbol
      have hname : ∀ v ∈ known, v.name ≠ x := by simpa using hname
      exact iff_of_true rfl fun v hv => ⟨hsymbol v hv, hname v hv⟩

end Units

/-! ## The units that operations register -/

namespace Registry

/-- The units that entries register, in their order, up to the first entry that is refused. -/
def taken (r : Registry) : List (String × Value) → List MeasureUnit
  | [] => []
  | e :: entries =>
    match MeasureUnit.read e.1 e.2 with
    | .error _ => []
    | .ok unit =>
      match r.registerUnit unit with
      | .error _ => []
      | .ok r' => unit :: r'.taken entries

/-- **The units registered before**, the newest first, **and by one more operation**. -/
def Operation.note (r : Registry) (l : List MeasureUnit) : Operation → List MeasureUnit
  | registerUnit unit => if (r.registerUnit unit).isOk then unit :: l else l
  | loadUnits text source => (r.taken (definitions text source)).reverse ++ l
  | loadUnitFile files path =>
    match files.read path with
    | .ok text => (r.taken (definitions text path)).reverse ++ l
    | .error _ => l
  | reset => []
  | _ => l

/-- A registry and the units it was given, after one more operation. -/
def record (s : Registry × List MeasureUnit) (op : Operation) : Registry × List MeasureUnit :=
  (op.run s.1, op.note s.1 s.2)

/-- **The units registered** since everything was forgotten last, the newest first. -/
def known (ops : List Operation) : List MeasureUnit := (ops.foldl record (.empty, [])).2

variable {r r' : Registry} {l : List MeasureUnit} {unit : MeasureUnit} {ops : List Operation}

theorem tells_registerUnit (h : Units.Tells l r.units) (hok : r.registerUnit unit = .ok r') :
    Units.Tells (unit :: l) r'.units := by
  obtain ⟨-, -, rfl⟩ := registerUnit_eq_ok_iff.1 hok
  exact h.cons

theorem tells_taken (h : Units.Tells l r.units) (entries : List (String × Value)) :
    Units.Tells ((r.taken entries).reverse ++ l) (registerAll takeUnit r entries).1.units := by
  induction entries generalizing r l with
  | nil => exact h
  | cons e entries ih =>
    rw [taken, registerAll, takeUnit]
    cases hread : MeasureUnit.read e.1 e.2 with
    | error m => exact h
    | ok unit =>
      dsimp only
      cases hok : r.registerUnit unit with
      | error e => exact h
      | ok r' =>
        dsimp only
        rw [List.reverse_cons, List.append_assoc]
        exact ih (tells_registerUnit h hok)

theorem tells_note (h : Units.Tells l r.units) (op : Operation) : Units.Tells (op.note r l) (op.run r).units := by
  have hquantities (text source : String) : Units.Tells l (r.loadQuantities text source).1.units :=
    loadText_induction (P := fun r => Units.Tells l r.units) (fun h hok => by
      obtain ⟨q, rfl⟩ := takeQuantity_eq_ok hok
      exact ⟨h.symbol, h.name⟩) h text source
  have hunits (text source : String) : Units.Tells ((r.taken (definitions text source)).reverse ++ l)
      (r.loadUnits text source).1.units := by
    rw [loadUnits, loadText_fst]
    exact tells_taken h _
  cases op with
  | registerType name =>
    change Units.Tells l (r.keep (r.registerType name)).units
    cases hok : r.registerType name with
    | ok r' =>
      obtain ⟨d, -, hr⟩ := exists_of_bind_eq_ok hok
      cases hr
      exact h
    | error e => exact h
  | registerQuantity name q => exact ⟨h.symbol, h.name⟩
  | registerUnit unit =>
    rw [Operation.run, Operation.note]
    cases hok : r.registerUnit unit with
    | ok r' => exact tells_registerUnit h hok
    | error e => exact h
  | loadQuantities text source => exact hquantities text source
  | loadUnits text source => exact hunits text source
  | loadQuantityFile files path =>
    exact loadFile_induction (P := fun r => Units.Tells l r.units) hquantities h files path
  | loadUnitFile files path =>
    rw [Operation.run, Operation.note, Registry.loadUnitFile, loadFile]
    cases files.read path with
    | ok text => exact hunits text path
    | error cause => exact h
  | clearDynamic => exact h
  | reset => exact Units.tells_nil

theorem foldl_record (ops : List Operation) : ops.foldl record (.empty, []) = (after ops, known ops) := by
  refine Prod.ext ?_ rfl
  induction ops using List.reverseRecOn with
  | nil => rfl
  | append_singleton ops op ih =>
    rw [List.foldl_concat, record, ih, after_concat]

theorem known_concat (ops : List Operation) (op : Operation) :
    known (ops ++ [op]) = op.note (after ops) (known ops) := by
  rw [known, List.foldl_concat, foldl_record, record]

theorem tells_known (ops : List Operation) : Units.Tells (known ops) (after ops).units := by
  induction ops using List.reverseRecOn with
  | nil => exact Units.tells_nil
  | append_singleton ops op ih =>
    rw [known_concat, after_concat]
    exact tells_note ih op

/-- **Look-ups are truthful but for overtaken long names.**  Whatever was registered, loaded and forgotten: a unit is
found by exactly the symbols and long names of the registered units, and the name it is found by is its symbol or its
long name if and only if it is no long name that was overtaken.  The unit registered last, by itself or from a text, is
found by its symbol, and by its long name too if and only if that is not the symbol of another unit. -/
theorem lookup_truthful (ops : List Operation) :
    (∀ x, (after ops).unit? x = none ↔ ∀ v ∈ known ops, v.symbol ≠ x ∧ v.name ≠ x) ∧
    (∀ x unit, (after ops).unit? x = some unit → ((x = unit.symbol ∨ x = unit.name) ↔ ¬Units.Outdated (known ops) x)) ∧
    (∀ unit r, (after ops).registerUnit unit = .ok r → r.unit? unit.symbol = some unit ∧
      (r.unit? unit.name = some unit ↔ unit.name = unit.symbol ∨ ∀ v ∈ known ops, v.symbol ≠ unit.name)) ∧
    ∀ unit earlier, known ops = unit :: earlier → (after ops).unit? unit.symbol = some unit ∧
      ((after ops).unit? unit.name = some unit ↔ unit.name = unit.symbol ∨ ∀ v ∈ earlier, v.symbol ≠ unit.name) := by
  have htells := tells_known ops
  refine ⟨fun x => htells.lookup?_eq_none_iff, fun x unit hx => htells.truthful_iff hx,
    fun unit r hok => (tells_registerUnit htells hok).newest, fun unit earlier hknown => ?_⟩
  rw [hknown] at htells
  exact htells.newest

def metre (name : String) : MeasureUnit where
  symbol := "m"
  definition := "distance"
  name := name
  quantity := "length"
  allowed := ["float"]

def respelled : List Operation :=
  [.registerQuantity "length" { definition := "extent" }, .registerUnit (metre "meter"), .registerUnit (metre "metre")]

theorem known_respelled : known respelled = [metre "metre", metre "meter"] := by decide +kernel

/-- **The newer spelling is looked up truly**, and the older one was overtaken. -/
theorem lookup_respelled : (after respelled).unit? "metre" = some (metre "metre") ∧
    ¬Units.Outdated (known respelled) "metre" ∧
    Units.Outdated (known respelled) "meter" := by
  obtain ⟨-, htrue, -, hnewest⟩ := lookup_truthful respelled
  obtain ⟨hsymbol, hname⟩ := hnewest (metre "metre") [metre "meter"] known_respelled
  have hmetre : (after respelled).unit? "metre" = some (metre "metre") := hname.2 (.inr (by decide))
  have hmeter : (after respelled).unit? "meter" = some (metre "metre") := by decide +kernel
  refine ⟨hmetre, (htrue _ _ hmetre).1 (.inr rfl), not_not.1 (mt (htrue _ _ hmeter).2 (by decide))⟩

/-- **The older spelling** is looked up all the same, and gives a unit that has another name. -/
theorem not_truthful_respelled : ¬∀ x unit, (after respelled).unit? x = some unit →
    x = unit.symbol ∨ x = unit.name := by
  intro htruthful
  have hmeter : (after respelled).unit? "meter" = some (metre "metre") := by decide +kernel
  exact absurd (htruthful _ _ hmeter) (by decide)

end Registry
end SignalCatalog
