import SignalCatalog.Payload.Validate
import SignalCatalog.Proofs.MeasureUnit
/-!
# Valid payloads

What the rules of a payload ask for, apart from the order in which they are checked.  The rule on units needs units
whose datatypes are known, as the registration of a unit sees to.
-/
namespace SignalCatalog

/-- **The units of a registry allow known datatypes only.** -/
def Registry.UnitsKnown (r : Registry) : Prop := ∀ e ∈ r.units.units, ∀ a ∈ e.2.allowed, r.datatypes.isKnown a = true

namespace DatatypeFields

/-- **A default that fits**: a list just for an array datatype, of the size that is given, of the datatype's values, and
with nothing in it that is not allowed. -/
structure DefaultFits (r : Registry) (f : DatatypeFields) (v : Value) : Prop where
  form : (∃ items, v = .list items) ↔ Datatype.isArray f.datatype = true
  count : ∀ size ∈ f.arraysize, ∀ items, v = .list items → items.length = size
  member : r.datatypes.Holds f.datatype v
  among : ∀ allowed ∈ f.allowed, ∀ e ∈ defaultElements v, ∃ a ∈ allowed, a.same e = true

/-- **Allowed values that fit**: values of a scalar or of the elements of an array, in place of bounds. -/
structure AllowedFits (r : Registry) (f : DatatypeFields) (allowed : List Value) : Prop where
  member : ∀ v ∈ allowed, r.datatypes.Holds (Datatype.base f.datatype) v
  unbounded : f.min = none ∧ f.max = none

/-- **The rules of a node with a datatype.** -/
structure Valid (r : Registry) (f : DatatypeFields) : Prop where
  known : r.datatypes.isKnown f.datatype = true
  sized : f.arraysize ≠ none → Datatype.isArray f.datatype = true
  default : ∀ v ∈ f.default, f.DefaultFits r v
  allowed : ∀ l ∈ f.allowed, f.AllowedFits r l
  unit : ∀ name ∈ f.unit, ∃ unit, r.unit? name = some unit ∧ unit.Admits r.datatypes f.datatype

variable {r : Registry} {f : DatatypeFields} {v : Value} {l : List Value} {name : String} {b : Bool}

theorem ifPresent_eq_ok_iff {α : Type} {field : Option α} {check : α → Except PayloadError Unit} :
    ifPresent field check = .ok () ↔ ∀ a ∈ field, check a = .ok () := by
  cases field <;> simp [ifPresent]

theorem isMember_eq_ok_iff (h : r.datatypes.isKnown name = true) :
    isMember r v name = .ok b ↔ (b = true ↔ r.datatypes.Holds name v) := by
  rw [← Datatypes.isValue_eq_ok_iff h]
  delta isMember
  cases r.datatypes.isValue v name <;> simp

theorem isAllowed_iff : isAllowed l v = true ↔ ∃ a ∈ l, a.same v = true := List.any_eq_true

theorem checkDefaultForm_eq_ok_iff : f.checkDefaultForm v = .ok () ↔
    ((∃ items, v = .list items) ↔ Datatype.isArray f.datatype = true) ∧
      ∀ size ∈ f.arraysize, ∀ items, v = .list items → items.length = size := by
  unfold checkDefaultForm
  cases Datatype.isArray f.datatype <;> cases v <;> simp
  cases f.arraysize <;> simp

theorem member_bind_eq_ok_iff {e : PayloadError} {k : Unit → Except PayloadError Unit}
    (h : r.datatypes.isKnown name = true) :
    (isMember r v name >>= fun b => if (!b) = true then (throw e : Except PayloadError Unit) >>= k else k ()) = .ok () ↔
      r.datatypes.Holds name v ∧ k () = .ok () := by
  by_cases hholds : r.datatypes.Holds name v
  · have hmember : isMember r v name = .ok true := (isMember_eq_ok_iff h).2 (by simp [hholds])
    simp [hmember, hholds, bind, Except.bind]
  · have hmember : isMember r v name = .ok false := (isMember_eq_ok_iff h).2 (by simp [hholds])
    rw [hmember]
    exact iff_of_false (by rintro ⟨⟩) fun hk => hholds hk.1

theorem refuse_found_eq_ok_iff {found : Value → PayloadError} {elements : List Value} :
    (match elements.find? fun e => !isAllowed l e with
      | some bad => throw (found bad)
      | none => (pure () : Except PayloadError Unit)) = .ok () ↔ ∀ e ∈ elements, ∃ a ∈ l, a.same e = true := by
  cases hfind : elements.find? fun e => !isAllowed l e with
  | none =>
    rw [List.find?_eq_none] at hfind
    exact iff_of_true rfl fun e he => isAllowed_iff.1 (by simpa using hfind e he)
  | some bad =>
    have hbad := List.find?_some hfind
    refine iff_of_false (by rintro ⟨⟩) fun hall => ?_
    rw [isAllowed_iff.2 (hall bad (List.mem_of_find?_eq_some hfind))] at hbad
    cases hbad

theorem checkDefault_eq_ok_iff (h : r.datatypes.isKnown f.datatype = true) :
    f.checkDefault r v = .ok () ↔ f.DefaultFits r v := by
  unfold checkDefault
  rw [check_bind_eq_ok_iff, checkDefaultForm_eq_ok_iff, member_bind_eq_ok_iff h]
  constructor
  · rintro ⟨⟨hform, hcount⟩, hmember, hamong⟩
    refine ⟨hform, hcount, hmember, fun allowed hallowed => ?_⟩
    rw [hallowed] at hamong
    exact refuse_found_eq_ok_iff.1 hamong
  · intro h
    refine ⟨⟨h.form, h.count⟩, h.member, ?_⟩
    cases hallowed : f.allowed with
    | none => rfl
    | some allowed => exact refuse_found_eq_ok_iff.2 (h.among allowed hallowed)

theorem checkAllowedTypes_eq_ok_iff (h : r.datatypes.isKnown name = true) :
    ∀ l : List Value, checkAllowedTypes r name l = .ok () ↔ ∀ v ∈ l, r.datatypes.Holds name v
  | [] => by simp [checkAllowedTypes]
  | v :: rest => by
    unfold checkAllowedTypes
    rw [member_bind_eq_ok_iff h, checkAllowedTypes_eq_ok_iff h rest, List.forall_mem_cons]

theorem checkAllowed_eq_ok_iff (h : r.datatypes.isKnown f.datatype = true) :
    f.checkAllowed r l = .ok () ↔ f.AllowedFits r l := by
  have hunbounded : (if (f.min.isSome || f.max.isSome) = true then throw (.invariant .allowedWithBounds)
      else (pure () : Except PayloadError Unit)) = .ok () ↔ f.min = none ∧ f.max = none := by
    cases f.min <;> cases f.max <;> simp [pure, Except.pure, throw, throwThe, MonadExceptOf.throw]
  unfold checkAllowed
  rw [check_bind_eq_ok_iff, checkAllowedTypes_eq_ok_iff (Datatypes.isKnown_base h), hunbounded]
  exact ⟨fun ⟨hmember, hunbounded⟩ => ⟨hmember, hunbounded⟩, fun ⟨hmember, hunbounded⟩ => ⟨hmember, hunbounded⟩⟩

/-- **The rules but the one on units**, whatever units there are. -/
theorem validate_eq_ok_iff : f.validate r = .ok () ↔ r.datatypes.isKnown f.datatype = true ∧
    (f.arraysize ≠ none → Datatype.isArray f.datatype = true) ∧ (∀ v ∈ f.default, f.DefaultFits r v) ∧
      (∀ l ∈ f.allowed, f.AllowedFits r l) ∧ ∀ name ∈ f.unit, f.checkUnit r name = .ok () := by
  unfold validate
  simp only [refuse_eq_ok_iff, check_bind_eq_ok_iff, ifPresent_eq_ok_iff, Bool.not_eq_true', Bool.not_eq_false]
  refine and_congr_right fun hknown => and_congr ?_ (and_congr ?_ (and_congr_left' ?_))
  · cases f.arraysize <;> simp
  · exact forall₂_congr fun v _ => checkDefault_eq_ok_iff hknown
  · exact forall₂_congr fun l _ => checkAllowed_eq_ok_iff hknown

/-! ## Units -/

theorem checkUnit_eq_ok_iff (hr : r.UnitsKnown) (h : r.datatypes.isKnown f.datatype = true) :
    f.checkUnit r name = .ok () ↔
    ∃ unit, r.unit? name = some unit ∧ unit.Admits r.datatypes f.datatype := by
  unfold checkUnit
  cases hunit : r.unit? name with
  | none => simp
  | some unit =>
    obtain ⟨e, he, rfl⟩ := Units.exists_of_lookup? hunit
    have hcompatible := Units.isCompatible_eq_ok_iff (hr e he) h
    by_cases hadmits : e.2.Admits r.datatypes f.datatype
    · simp [(hcompatible true).2 (by simp [hadmits]), hadmits]
    · simp [(hcompatible false).2 (by simp [hadmits]), hadmits]

theorem validate_iff_valid (hr : r.UnitsKnown) : f.validate r = .ok () ↔ f.Valid r := by
  rw [validate_eq_ok_iff]
  constructor
  · rintro ⟨hknown, hsized, hdefault, hallowed, hunit⟩
    exact ⟨hknown, hsized, hdefault, hallowed, fun name hname => (checkUnit_eq_ok_iff hr hknown).1 (hunit name hname)⟩
  · intro h
    exact ⟨h.known, h.sized, h.default, h.allowed,
      fun name hname => (checkUnit_eq_ok_iff hr h.known).2 (h.unit name hname)⟩

end DatatypeFields

namespace Payload

/-- **The form of a constant uid**: `0x` and eight hexadecimal digits. -/
def UidForm (uid : String) : Prop := ∃ digits, uid.toList = '0' :: 'x' :: digits ∧ digits.length = 8 ∧
  ∀ c ∈ digits, ('0' ≤ c ∧ c ≤ '9') ∨ ('a' ≤ c ∧ c ≤ 'f') ∨ ('A' ≤ c ∧ c ≤ 'F')

/-- **The rules of a payload.** -/
structure Valid (r : Registry) (p : Payload) : Prop where
  uid : ∀ uid ∈ p.common.constUid, UidForm uid
  fields : ∀ f ∈ p.datatypeFields?, f.Valid r

variable {r : Registry} {p : Payload}

theorem isConstUid_iff {uid : String} : isConstUid uid = true ↔ UidForm uid := by
  unfold isConstUid UidForm
  split
  · rename_i digits hdigits
    simp [hdigits, isHexDigit, Char.isDigit, Char.le_def, or_assoc]
  · rename_i hother
    refine iff_of_false (by simp) ?_
    rintro ⟨digits, hdigits, -⟩
    exact hother digits hdigits

theorem checkConstUid_eq_ok_iff : p.checkConstUid = .ok () ↔ ∀ uid ∈ p.common.constUid, UidForm uid := by
  unfold checkConstUid
  cases p.common.constUid with
  | none => simp
  | some uid => by_cases h : isConstUid uid = true <;> simp [← isConstUid_iff, h]

/-- **A payload passes its checks** just when its rules hold. -/
theorem validate_iff (hr : r.UnitsKnown) : p.validate r = .ok () ↔ p.Valid r := by
  unfold validate
  rw [check_bind_eq_ok_iff, checkConstUid_eq_ok_iff, DatatypeFields.ifPresent_eq_ok_iff]
  constructor
  · rintro ⟨huid, hfields⟩
    exact ⟨huid, fun f hf => (DatatypeFields.validate_iff_valid hr).1 (hfields f hf)⟩
  · intro h
    exact ⟨h.uid, fun f hf => (DatatypeFields.validate_iff_valid hr).2 (h.fields f hf)⟩

def roads : Registry where
  units := {
    quantities := [("velocity", { definition := "speed" })]
    units := [("km/h", {
      symbol := "km/h"
      definition := "d"
      name := "kilometer per hour"
      quantity := "velocity"
      allowed := ["int16", "float[]"] })]
    aliases := [("kilometer per hour", "km/h")] }

def speeds : Payload where
  common := { description := "speeds", constUid := some "0x0A1B2C3d" }
  body := .sensor {
    datatype := "uint8[]"
    arraysize := some 2
    unit := some "kilometer per hour"
    allowed := some [.number (.int 30), .number (.int 50), .number (.int 100)]
    default := some (.list [.number (.int 50), .number (.int 30)]) }

def moreSpeeds : Payload where
  common := speeds.common
  body := .sensor {
    datatype := "uint8[]"
    arraysize := some 2
    default := some (.list [.number (.int 50), .number (.int 30), .number (.int 50)]) }

theorem validate_speeds : roads.UnitsKnown ∧ speeds.Valid roads ∧ ¬moreSpeeds.Valid roads := by
  have hunits : roads.UnitsKnown := by
    unfold Registry.UnitsKnown
    decide
  refine ⟨hunits, (validate_iff hunits).1 ?_, mt (validate_iff hunits).2 fun hvalid => ?_⟩
  · have hok : (speeds.validate roads).isOk = true := by decide +kernel
    cases hspeeds : speeds.validate roads with
    | ok => rfl
    | error e =>
      rw [hspeeds] at hok
      cases hok
  · have hrefused : (moreSpeeds.validate roads).isOk = false := by decide +kernel
    rw [hvalid] at hrefused
    cases hrefused

end Payload
end SignalCatalog
