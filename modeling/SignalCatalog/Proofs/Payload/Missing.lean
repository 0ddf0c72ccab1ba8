import SignalCatalog.Proofs.Payload.Fields
/-!
# Missing fields

Reading a payload stops at the first thing that is wrong.  A field is missing where its key is required, nothing is
given at it, and all that is read before it can be read; no rule between the fields says that one is missing.
-/
namespace SignalCatalog

/-- **Nothing is reported as missing.** -/
def NothingMissing {α : Type} (x : Except PayloadError α) : Prop := ∀ s, x ≠ .error (.missingField s)

namespace NothingMissing

variable {α β : Type} {x : Except PayloadError α} {f : α → Except PayloadError β}

theorem ok (a : α) : NothingMissing (.ok a) := fun _ h => by cases h

theorem bind (hx : NothingMissing x) (hf : ∀ a, NothingMissing (f a)) : NothingMissing (x >>= f) := fun s h => by
  rcases bind_eq_error_iff.1 h with h | ⟨a, -, h⟩
  · exact hx s h
  · exact hf a s h

theorem map (hx : NothingMissing x) (g : α → β) : NothingMissing (g <$> x) := by
  cases x with
  | error e => exact fun s h => hx s (congrArg Except.error (Except.error.inj h))
  | ok a => exact ok _

theorem error {e : PayloadError} (he : ∀ s, e ≠ .missingField s) : NothingMissing (.error e : Except PayloadError α) :=
  fun s h => he s (Except.error.inj h)

theorem refuse {p : Prop} [Decidable p] {e : PayloadError} {y : Except PayloadError β}
    {f : Unit → Except PayloadError β} (he : ∀ s, e ≠ .missingField s) (hy : NothingMissing y) :
    NothingMissing (if p then (throw e : Except PayloadError Unit) >>= f else y) := by
  split
  · exact error he
  · exact hy

theorem ifPresent {field : Option α} {check : α → Except PayloadError Unit} (h : ∀ a, NothingMissing (check a)) :
    NothingMissing (DatatypeFields.ifPresent field check) := by
  cases field with
  | none => exact ok _
  | some a => exact h a

end NothingMissing

/-! ## The rules -/

namespace DatatypeFields

variable {r : Registry} {f : DatatypeFields}

theorem isMember_nothingMissing (r : Registry) (v : Value) (datatype : String) :
    NothingMissing (isMember r v datatype) := by
  intro s
  unfold isMember
  split <;> simp

theorem checkDefaultForm_nothingMissing (v : Value) : NothingMissing (f.checkDefaultForm v) := by
  intro s
  unfold checkDefaultForm
  split
  · split
    · split <;> simp
    · simp
  all_goals simp

theorem checkDefault_nothingMissing (v : Value) : NothingMissing (f.checkDefault r v) := by
  refine (checkDefaultForm_nothingMissing v).bind fun _ => (isMember_nothingMissing r v f.datatype).bind fun _ => ?_
  refine .refuse (by simp) ?_
  split
  · split
    · exact .error (by simp)
    · exact .ok _
  · exact .ok _

theorem checkAllowedTypes_nothingMissing (element : String) (l : List Value) :
    NothingMissing (checkAllowedTypes r element l) := by
  induction l with
  | nil => exact .ok _
  | cons v l ih => exact (isMember_nothingMissing r v element).bind fun _ => .refuse (by simp) ih

theorem checkAllowed_nothingMissing (allowed : List Value) : NothingMissing (f.checkAllowed r allowed) := by
  refine (checkAllowedTypes_nothingMissing _ allowed).bind fun _ => ?_
  split
  · exact .error (by simp)
  · exact .ok _

theorem checkUnit_nothingMissing (name : String) : NothingMissing (f.checkUnit r name) := by
  intro s
  rw [checkUnit]
  split
  · simp
  · split <;> simp

theorem validate_nothingMissing (r : Registry) (f : DatatypeFields) : NothingMissing (f.validate r) := by
  refine .refuse (by simp) (.refuse (by simp) ?_)
  refine (NothingMissing.ifPresent checkDefault_nothingMissing).bind fun _ => ?_
  exact (NothingMissing.ifPresent checkAllowed_nothingMissing).bind fun _ => .ifPresent checkUnit_nothingMissing

end DatatypeFields

namespace Payload

variable {r : Registry} {m declared extra : Mapping} {k : Kind} {key : Key} {name s : String}

theorem validate_nothingMissing (r : Registry) (p : Payload) : NothingMissing (p.validate r) := by
  have huid : NothingMissing p.checkConstUid := by
    intro s
    rw [checkConstUid]
    split
    · split <;> simp
    · simp
  exact huid.bind fun _ => .ifPresent (DatatypeFields.validate_nothingMissing r)

/-! ## Reading -/

theorem field_nothingMissing {α : Type} (read : Value → Except Mismatch α) (m : Mapping) (name : String) :
    NothingMissing (field read m name) := by
  intro s
  rw [field]
  split
  · simp
  · simp
  · split <;> simp

theorem required_eq_missingField_iff {α : Type} {read : Value → Except Mismatch α} :
    required read m name = .error (.missingField s) ↔ s = name ∧ ¬m.Gives name := by
  constructor
  · intro h
    rcases bind_eq_error_iff.1 h with h | ⟨a, ha, h⟩
    · exact absurd h (field_nothingMissing read m name s)
    · cases a with
      | some a => cases h
      | none =>
        refine ⟨(PayloadError.missingField.inj (Except.error.inj h)).symm, fun ⟨v, hv, hnull⟩ => ?_⟩
        rw [field, hv] at ha
        cases hread : read v <;> cases v <;> first | exact absurd rfl hnull | simp [hread] at ha
  · rintro ⟨rfl, hgives⟩
    rw [required, field_of_not_gives hgives]
    rfl

theorem readKind_eq_missingField_iff : readKind m = .error (.missingField s) ↔ s = "type" ∧ ¬m.Gives "type" := by
  rw [readKind, bind_eq_error_iff, required_eq_missingField_iff, or_iff_left]
  rintro ⟨name, -, h⟩
  split at h <;> cases h

theorem readCommon_eq_missingField_iff :
    readCommon declared extra = .error (.missingField s) ↔ s = "description" ∧ ¬declared.Gives "description" := by
  rw [readCommon, bind_eq_error_iff, required_eq_missingField_iff, or_iff_left]
  rintro ⟨description, -, h⟩
  refine absurd h (NothingMissing.bind (field_nothingMissing _ _ _) (fun _ => ?_) s)
  refine (field_nothingMissing _ _ _).bind fun _ => (field_nothingMissing _ _ _).bind fun _ => ?_
  refine (field_nothingMissing _ _ _).bind fun _ => (field_nothingMissing _ _ _).bind fun _ => ?_
  exact (field_nothingMissing _ _ _).bind fun _ => .ok _

theorem readDatatypeFields_eq_missingField_iff :
    readDatatypeFields declared = .error (.missingField s) ↔ s = "datatype" ∧ ¬declared.Gives "datatype" := by
  rw [readDatatypeFields, bind_eq_error_iff, required_eq_missingField_iff, or_iff_left]
  rintro ⟨datatype, -, h⟩
  refine absurd h (NothingMissing.bind (field_nothingMissing _ _ _) (fun _ => ?_) s)
  refine (field_nothingMissing _ _ _).bind fun _ => (field_nothingMissing _ _ _).bind fun _ => ?_
  refine (field_nothingMissing _ _ _).bind fun _ => (field_nothingMissing _ _ _).bind fun _ => ?_
  exact (field_nothingMissing _ _ _).bind fun _ => .ok _

theorem readInstances_nothingMissing (declared : Mapping) : NothingMissing (readInstances declared) := by
  intro s
  rw [readInstances]
  split
  · simp
  · split <;> simp

theorem readBody_eq_missingField_iff : readBody declared k = .error (.missingField s) ↔
    k.hasDatatype = true ∧ s = "datatype" ∧ ¬declared.Gives "datatype" := by
  cases k with
  | branch => exact iff_of_false (((readInstances_nothingMissing declared).map _) s) fun h => by cases h.1
  | struct => exact iff_of_false (NothingMissing.ok _ s) fun h => by cases h.1
  | attr | sensor | actuator | property =>
    rw [readBody, map_eq_error_iff, readDatatypeFields_eq_missingField_iff]
    exact (and_iff_right rfl).symm

theorem exists_readCommon_iff : (∃ c, readCommon declared extra = .ok c) ↔
    ∀ key : Key, key.name ∈ Kind.commonKeys → key ≠ .type → ∃ f, key.read declared = .ok f := by
  constructor
  · rintro ⟨c, hc⟩ key hkey htype
    exact ⟨_, (get_of_readCommon hc).2 .struct key hkey htype⟩
  · intro h
    obtain ⟨f, hf⟩ := h .description (by decide) (by simp)
    obtain ⟨description, hdescription, -⟩ := exists_of_map_eq_ok hf
    obtain ⟨f, hf⟩ := h .comment (by decide) (by simp)
    obtain ⟨comment, hcomment, -⟩ := exists_of_map_eq_ok hf
    obtain ⟨f, hf⟩ := h .delete (by decide) (by simp)
    obtain ⟨delete, hdelete, -⟩ := exists_of_map_eq_ok hf
    obtain ⟨f, hf⟩ := h .deprecation (by decide) (by simp)
    obtain ⟨deprecation, hdeprecation, -⟩ := exists_of_map_eq_ok hf
    obtain ⟨f, hf⟩ := h .constUid (by decide) (by simp)
    obtain ⟨constUid, hconstUid, -⟩ := exists_of_map_eq_ok hf
    obtain ⟨f, hf⟩ := h .fka (by decide) (by simp)
    obtain ⟨fka, hfka, -⟩ := exists_of_map_eq_ok hf
    obtain ⟨f, hf⟩ := h .instantiate (by decide) (by simp)
    obtain ⟨instantiate, hinstantiate, -⟩ := exists_of_map_eq_ok hf
    rw [readCommon, hdescription, hcomment, hdelete, hdeprecation, hconstUid, hfka, hinstantiate]
    exact ⟨_, rfl⟩

theorem get?_declared (h : key.IsOf k) :
    Mapping.get? (m.filter fun e => isDeclared k e.1) key.name = m.get? key.name := by
  refine Mapping.lookup?_filter fun e _ hsame => ?_
  rw [(Value.same_string_iff _ _).1 hsame]
  exact isDeclared_name.2 h

theorem gives_declared (h : key.IsOf k) : Mapping.Gives (m.filter fun e => isDeclared k e.1) key.name ↔
    m.Gives key.name := by
  rw [Mapping.Gives, get?_declared h, Mapping.Gives]

/-- **A field that is reported as missing** is the first of the type, the description and the datatype that is not
given, all that is read before it being there to be read. -/
theorem read_eq_missingField_iff : read r (.mapping m) = .error (.missingField s) ↔
    s = "type" ∧ ¬m.Gives "type" ∨ ∃ k, readKind m = .ok k ∧ (s = "description" ∧ ¬m.Gives "description" ∨
      k.hasDatatype = true ∧ s = "datatype" ∧ ¬m.Gives "datatype" ∧
        ∀ key : Key, key.name ∈ Kind.commonKeys → ∃ f, key.read m = .ok f) := by
  have hfields : read r (.mapping m) = .error (.missingField s) ↔ readFields m = .error (.missingField s) := by
    change (readFields m >>= fun p => p.validate r >>= fun _ => .ok p) = _ ↔ _
    rw [bind_eq_error_iff, or_iff_left]
    rintro ⟨p, -, h⟩
    exact (validate_nothingMissing r p).bind (fun _ => .ok _) s h
  rw [hfields, readFields, bind_eq_error_iff, readKind_eq_missingField_iff]
  refine or_congr_right (exists_congr fun k => and_congr_right fun hk => ?_)
  have hdescription : Mapping.Gives (m.filter fun e => isDeclared k e.1) "description" ↔ m.Gives "description" :=
    gives_declared (show Key.IsOf .description k from Key.isOf_iff.2 (.inl (by decide)))
  rw [bind_eq_error_iff, readCommon_eq_missingField_iff, hdescription]
  refine or_congr_right ?_
  have hbody : ∀ c : CommonFields,
      (readBody (m.filter fun e => isDeclared k e.1) k >>= fun body => .ok ⟨c, body⟩ : Except PayloadError Payload) =
        .error (.missingField s) ↔ k.hasDatatype = true ∧ s = "datatype" ∧ ¬m.Gives "datatype" := by
    intro c
    rw [bind_eq_error_iff, or_iff_left (by rintro ⟨_, -, h⟩; exact NothingMissing.ok _ s h),
      readBody_eq_missingField_iff]
    refine and_congr_right fun htyped => and_congr_right fun _ => not_congr ?_
    exact gives_declared (show Key.IsOf .datatype k from Key.isOf_iff.2
      (.inr (ownKeys_of_hasDatatype htyped ▸ by decide)))
  have hcommon : (∃ c, readCommon (m.filter fun e => isDeclared k e.1) (m.filter fun e => !isDeclared k e.1) = .ok c) ↔
      ∀ key : Key, key.name ∈ Kind.commonKeys → ∃ f, key.read m = .ok f := by
    rw [exists_readCommon_iff]
    refine forall₂_congr fun key hkey => ?_
    rw [Key.read_congr (get?_declared (Key.isOf_iff.2 (.inl hkey)))]
    refine ⟨fun h => ?_, fun h _ => h⟩
    by_cases htype : key = .type
    · rw [htype, Key.read, hk]
      exact ⟨_, rfl⟩
    · exact h htype
  rw [← hcommon]
  constructor
  · rintro ⟨c, hc, h⟩
    obtain ⟨htyped, hs, hgives⟩ := (hbody c).1 h
    exact ⟨htyped, hs, hgives, c, hc⟩
  · rintro ⟨htyped, hs, hgives, c, hc⟩
    exact ⟨c, hc, (hbody c).2 ⟨htyped, hs, hgives⟩⟩

end Payload
end SignalCatalog
