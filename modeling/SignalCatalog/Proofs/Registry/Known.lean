import SignalCatalog.Proofs.Registry.Resolved
/-!
# Which names are known

A registry holds the struct types that were registered since they were forgotten last, in the order of their
registration.  A name is known when it is that of a datatype or of an array of one, and arrays have no arrays; but a
struct type may be registered under a name that looks like that of an array.
-/
namespace SignalCatalog

/-! ## Names of arrays -/

namespace Datatype

variable {name : String}

theorem isArray_iff : isArray name = true ↔ ∃ n, name = arrayForm n := by
  rw [isArray, List.isSuffixOf_iff_suffix]
  constructor
  · rintro ⟨l, hl⟩
    refine ⟨String.ofList l, String.toList_injective ?_⟩
    rw [arrayForm, String.toList_append, String.toList_ofList, hl]
  · rintro ⟨n, rfl⟩
    exact ⟨n.toList, String.toList_append.symm⟩

theorem base_arrayForm (n : String) : base (arrayForm n) = n := by
  rw [base, if_pos (isArray_iff.2 ⟨n, rfl⟩), arrayForm, String.toList_append]
  simp

theorem base_eq_iff {n : String} (hn : isArray n = false) : base name = n ↔ name = n ∨ name = arrayForm n := by
  by_cases h : isArray name = true
  · obtain ⟨m, rfl⟩ := isArray_iff.1 h
    have hne : arrayForm m ≠ n := by
      rintro rfl
      rw [h] at hn
      cases hn
    rw [base_arrayForm, or_iff_right hne]
    exact ⟨fun heq => heq ▸ rfl, fun heq => by rw [← base_arrayForm m, heq, base_arrayForm]⟩
  · have hne : name ≠ arrayForm n := fun heq => h (isArray_iff.2 ⟨n, heq⟩)
    rw [base_of_not_isArray (by simpa using h), or_iff_left hne]

end Datatype

namespace Datatypes

variable {d : Datatypes} {s : String}

/-- **What is known** are the names of datatypes and of their arrays, where these are no names of arrays themselves. -/
theorem isKnown_iff_exists : d.isKnown s = true ↔ ∃ n ∈ d.names, Datatype.isArray n = false ∧
    (s = n ∨ s = Datatype.arrayForm n) := by
  rw [isKnown_iff_mem_names]
  constructor
  · rintro ⟨harray, hmem⟩
    exact ⟨_, hmem, harray, (Datatype.base_eq_iff harray).1 rfl⟩
  · rintro ⟨n, hmem, harray, hs⟩
    rw [(Datatype.base_eq_iff harray).2 hs]
    exact ⟨harray, hmem⟩

theorem mem_knownNames : s ∈ d.knownNames ↔ ∃ n ∈ d.names, s = n ∨ s = Datatype.arrayForm n := by
  rw [knownNames, List.mem_mergeSort, List.mem_eraseDups, List.mem_flatMap]
  simp

theorem isArray_builtIn : ∀ t ∈ Datatype.builtIn, Datatype.isArray t.name = false := by decide

theorem forall_names_scalar : (∀ n ∈ d.names, Datatype.isArray n = false) ↔
    ∀ n ∈ d.dynamic, Datatype.isArray n = false := by
  rw [names_eq, List.forall_mem_append, List.forall_mem_map]
  exact and_iff_right isArray_builtIn

/-- **What is known is what is listed** just where no struct type has the name of an array. -/
theorem knownNames_agree_iff : (∀ s, d.isKnown s = true ↔ s ∈ d.knownNames) ↔
    ∀ n ∈ d.dynamic, Datatype.isArray n = false := by
  rw [← forall_names_scalar]
  constructor
  · intro hagree n hn
    -- the array form of a name that is listed is listed too
    obtain ⟨harray, -⟩ :=
      isKnown_iff_mem_names.1 ((hagree (Datatype.arrayForm n)).2 (mem_knownNames.2 ⟨n, hn, .inr rfl⟩))
    rwa [Datatype.base_arrayForm] at harray
  · intro hscalar s
    rw [isKnown_iff_exists, mem_knownNames]
    exact exists_congr fun n => and_congr_right fun hn => and_iff_right (hscalar n hn)

theorem isKnown_both_iff (h : s ∈ d.names) : (d.isKnown s = true ∧ d.isKnown (Datatype.arrayForm s) = true) ↔
    Datatype.isArray s = false := by
  constructor
  · rintro ⟨-, hknown⟩
    rw [← Datatype.base_arrayForm s]
    exact (isKnown_iff_mem_names.1 hknown).1
  · exact fun hs => ⟨isKnown_iff_exists.2 ⟨s, h, hs, .inl rfl⟩, isKnown_iff_exists.2 ⟨s, h, hs, .inr rfl⟩⟩

end Datatypes

/-! ## The struct types of a run -/

namespace Registry

variable {r r' : Registry} {unit : MeasureUnit} {ops : List Operation} {name : String}

def Operation.enrol (r : Registry) (l : List String) : Operation → List String
  | registerType name => if (r.registerType name).isOk then l ++ [name] else l
  | clearDynamic => []
  | reset => []
  | _ => l

def registeredFrom (r : Registry) (l : List String) : List Operation → List String
  | [] => l
  | op :: ops => registeredFrom (op.run r) (op.enrol r l) ops

/-- **The struct types registered** since they were forgotten last, in the order of their registration. -/
def registered (ops : List Operation) : List String := registeredFrom .empty [] ops

theorem datatypes_of_registerUnit (h : r.registerUnit unit = .ok r') : r'.datatypes = r.datatypes := by
  obtain ⟨-, -, rfl⟩ := registerUnit_eq_ok_iff.1 h
  rfl

theorem datatypes_loadQuantities (text source : String) : (r.loadQuantities text source).1.datatypes = r.datatypes :=
  loadText_induction (P := fun r' => r'.datatypes = r.datatypes) (fun hr hok => by
    obtain ⟨q, rfl⟩ := takeQuantity_eq_ok hok
    exact hr) rfl text source

theorem datatypes_loadUnits (text source : String) : (r.loadUnits text source).1.datatypes = r.datatypes :=
  loadText_induction (P := fun r' => r'.datatypes = r.datatypes) (fun hr hok => by
    obtain ⟨unit, -, hok⟩ := takeUnit_eq_ok hok
    exact (datatypes_of_registerUnit hok).trans hr) rfl text source

/-- **One operation** adds a struct type where it registers one, and forgets them all or none. -/
theorem dynamic_run (op : Operation) : (op.run r).datatypes.dynamic = op.enrol r r.datatypes.dynamic := by
  cases op with
  | registerType name =>
    rw [Operation.run, Operation.enrol]
    cases hok : r.registerType name with
    | ok r' =>
      obtain ⟨d, hd, hr⟩ := exists_of_bind_eq_ok hok
      cases hr
      exact (Datatypes.register_eq_ok hd).2
    | error e => rfl
  | registerQuantity name q => rfl
  | registerUnit unit =>
    change (r.keep (r.registerUnit unit)).datatypes.dynamic = r.datatypes.dynamic
    cases hok : r.registerUnit unit with
    | ok r' => exact congrArg _ (datatypes_of_registerUnit hok)
    | error e => rfl
  | loadQuantities text source => exact congrArg _ (datatypes_loadQuantities text source)
  | loadUnits text source => exact congrArg _ (datatypes_loadUnits text source)
  | loadQuantityFile files path =>
    exact congrArg _ (loadFile_induction (P := fun r' => r'.datatypes = r.datatypes)
      (fun text source => datatypes_loadQuantities text source) rfl files path)
  | loadUnitFile files path =>
    exact congrArg _ (loadFile_induction (P := fun r' => r'.datatypes = r.datatypes)
      (fun text source => datatypes_loadUnits text source) rfl files path)
  | clearDynamic => rfl
  | reset => rfl

theorem dynamic_foldl (ops : List Operation) (r : Registry) :
    (ops.foldl Operation.run r).datatypes.dynamic = registeredFrom r r.datatypes.dynamic ops := by
  induction ops generalizing r with
  | nil => rfl
  | cons op ops ih => rw [List.foldl_cons, ih, dynamic_run, registeredFrom]

theorem dynamic_after (ops : List Operation) : (after ops).datatypes.dynamic = registered ops :=
  dynamic_foldl ops .empty

/-- **Known names agree but for struct types named as arrays.**  Whatever was registered and forgotten: a name is known
if and only if it is listed, for all names at once, just where no registered struct type has a name that ends as that of
an array; and a registered struct type is known in both its forms just where its own name does not.  In any case a name
is known when it is that of a datatype or its array form, and the datatype's name is not that of an array; and listed
when it is that of a datatype or its array form. -/
theorem known_names_agree (ops : List Operation) :
    ((∀ s, (after ops).datatypes.isKnown s = true ↔ s ∈ (after ops).datatypes.knownNames) ↔
      ∀ name ∈ registered ops, Datatype.isArray name = false) ∧
    (∀ name ∈ registered ops, ((after ops).datatypes.isKnown name = true ∧
      (after ops).datatypes.isKnown (Datatype.arrayForm name) = true) ↔
      Datatype.isArray name = false) ∧
    ∀ s, ((after ops).datatypes.isKnown s = true ↔ ∃ n ∈ Datatype.builtIn.map (·.name) ++ registered ops,
        Datatype.isArray n = false ∧ (s = n ∨ s = Datatype.arrayForm n)) ∧
      (s ∈ (after ops).datatypes.knownNames ↔ ∃ n ∈ Datatype.builtIn.map (·.name) ++ registered ops,
        s = n ∨ s = Datatype.arrayForm n) := by
  rw [← dynamic_after ops, ← Datatypes.names_eq]
  refine ⟨Datatypes.knownNames_agree_iff, fun name hname => Datatypes.isKnown_both_iff ?_,
    fun s => ⟨Datatypes.isKnown_iff_exists, Datatypes.mem_knownNames⟩⟩
  rw [Datatypes.names_eq]
  exact List.mem_append_right _ hname

def spans : List Operation :=
  [.registerType "Types.Point", .clearDynamic, .registerType "Types.Span", .registerType "Span",
    .registerType "Types.Span"]

/-- **One struct type is left**, and what is known is what is listed. -/
theorem spans_agree : registered spans = ["Types.Span"] ∧
    (∀ s, (after spans).datatypes.isKnown s = true ↔ s ∈ (after spans).datatypes.knownNames) ∧
    (after spans).datatypes.isKnown "Types.Span" = true ∧
    (after spans).datatypes.isKnown (Datatype.arrayForm "Types.Span") = true := by
  have hregistered : registered spans = ["Types.Span"] := by decide +kernel
  have hscalar : ∀ name ∈ registered spans, Datatype.isArray name = false := by
    rw [hregistered]
    decide
  have hmem : "Types.Span" ∈ registered spans := hregistered ▸ List.mem_singleton_self _
  obtain ⟨hagree, hforms, -⟩ := known_names_agree spans
  exact ⟨hregistered, hagree.2 hscalar, (hforms _ hmem).2 (hscalar _ hmem)⟩

def pointArray : List Operation := [.registerType "Types.Point[]"]

/-- **A struct type named as an array** is registered and listed, and known in neither form. -/
theorem pointArray_unknown : registered pointArray = ["Types.Point[]"] ∧
    "Types.Point[]" ∈ (after pointArray).datatypes.knownNames ∧
    (after pointArray).datatypes.isKnown "Types.Point[]" = false ∧
      (after pointArray).datatypes.isKnown (Datatype.arrayForm "Types.Point[]") = false :=
  ⟨by decide +kernel, Datatypes.mem_knownNames.2 ⟨"Types.Point[]", by decide +kernel, .inl rfl⟩,
    by decide +kernel, by decide +kernel⟩

end Registry
end SignalCatalog
