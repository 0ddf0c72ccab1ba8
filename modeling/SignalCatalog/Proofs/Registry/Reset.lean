import SignalCatalog.Proofs.Registry.Known
/-!
# What a reset forgets

The table of datatypes is the built-in ones and then the struct types that are registered, whatever was registered,
loaded and forgotten before.  So taking the registered struct types out of it leaves a new table, and emptying the
tables of units besides leaves a new registry.
-/
namespace SignalCatalog
namespace Registry

variable {r r' : Registry} {name : String}

/-! ## The struct types, each once -/

theorem nodup_registerType (h : r.datatypes.dynamic.Nodup) (hok : r.registerType name = .ok r') :
    r'.datatypes.dynamic.Nodup := by
  obtain ⟨d, hd, hr⟩ := exists_of_bind_eq_ok hok
  cases hr
  obtain ⟨hnew, hdynamic⟩ := Datatypes.register_eq_ok hd
  rw [hdynamic, ← List.concat_eq_append]
  exact h.concat hnew

theorem nodup_run (h : r.datatypes.dynamic.Nodup) (op : Operation) : (op.run r).datatypes.dynamic.Nodup :=
  run_induction (P := fun r => r.datatypes.dynamic.Nodup) nodup_registerType (fun _ _ h => h)
    (fun h hok => datatypes_of_registerUnit hok ▸ h) List.nodup_nil op (fun _ => List.nodup_nil) h

theorem nodup_registered (ops : List Operation) : (registered ops).Nodup := by
  rw [← dynamic_after]
  induction ops using List.reverseRecOn with
  | nil => exact List.nodup_nil
  | append_singleton ops op ih =>
    rw [after_concat]
    exact nodup_run ih op

/-! ## The table of datatypes -/

/-- **The table after some operations** is the new one and then the struct types that were registered. -/
theorem types_after (ops : List Operation) :
    (after ops).datatypes.types = Datatypes.empty.types ++ (registered ops).map Datatype.ofStruct := by
  rw [← dynamic_after]
  exact (after ops).datatypes.types_eq

theorem not_mem_empty_of_registered {ops : List Operation} (h : name ∈ registered ops) :
    name ∉ Datatypes.empty.names := by
  rw [← dynamic_after] at h
  intro hmem
  have hqualified := (after ops).datatypes.qualified name h
  cases (Datatypes.mem_names_of_isQualified hqualified).1 hmem

theorem find?_after {ops : List Operation} (h : name ∉ registered ops) :
    (after ops).datatypes.find? name = Datatypes.empty.find? name := by
  have hnone : ((registered ops).map Datatype.ofStruct).find? (fun t => t.name == name) = none := by
    rw [List.find?_eq_none, List.forall_mem_map]
    intro n hn heq
    exact h (beq_iff_eq.1 heq ▸ hn)
  rw [Datatypes.find?, types_after, List.find?_append, hnone, Option.or_none, Datatypes.find?]

theorem mem_registered_iff {ops : List Operation} :
    name ∈ registered ops ↔ name ∈ (after ops).datatypes.names ∧ name ∉ Datatypes.empty.names := by
  rw [Datatypes.names, types_after, List.map_append, List.mem_append, List.map_map]
  change _ ↔ (name ∈ Datatypes.empty.names ∨ name ∈ (registered ops).map id) ∧ _
  rw [List.map_id]
  exact ⟨fun h => ⟨.inr h, not_mem_empty_of_registered h⟩, fun h => h.1.resolve_left h.2⟩

theorem after_append (ops later : List Operation) : after (ops ++ later) = later.foldl Operation.run (after ops) :=
  List.foldl_append

/-- **A reset forgets everything and nothing else.**  Whatever was registered, loaded, also by loads that failed on the
way, and forgotten: every built-in datatype is what it is in a new registry; the struct types are those registered since
they were forgotten last, in that order and each once, and are exactly the names in the table that a new registry has
not; and after a reset the registry is, and by all further operations becomes, the very one that these make of a new
registry. -/
theorem reset_forgets (ops : List Operation) :
    (∀ name ∈ Datatypes.empty.names, (after ops).datatypes.find? name = Datatypes.empty.find? name) ∧
    (after ops).datatypes.dynamic = registered ops ∧ (registered ops).Nodup ∧
    (∀ name, name ∈ (after ops).datatypes.dynamic ↔ name ∈ (after ops).datatypes.names ∧ name ∉ Datatypes.empty.names) ∧
    ∀ later, after (ops ++ .reset :: later) = after later := by
  refine ⟨fun name hname => find?_after fun h => not_mem_empty_of_registered h hname, dynamic_after ops,
    nodup_registered ops, fun name => ?_, fun later => ?_⟩
  · rw [dynamic_after]
    exact mem_registered_iff
  · rw [after_append, List.foldl_cons, Operation.run, reset_eq]
    rfl

/-- A type, a quantity, a unit and a load that fails are forgotten, and the built-in datatypes were never touched. -/
theorem survey_forgotten : registered survey = ["Types.Span"] ∧
    (after survey).datatypes.find? "uint8" = some ⟨"uint8", .integer false 8, []⟩ ∧
    after (survey ++ [.reset]) = .empty := by
  obtain ⟨hbuiltIn, -, -, -, hreset⟩ := reset_forgets survey
  exact ⟨by decide +kernel, hbuiltIn "uint8" (by decide), hreset []⟩

end Registry
end SignalCatalog
