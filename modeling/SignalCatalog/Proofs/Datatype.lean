import Mathlib.Algebra.Ring.Int.Defs
import SignalCatalog.Datatype
import SignalCatalog.Proofs.Steps
/-!
# Values of datatypes

Which values a datatype has, said without the test that decides it, and when the questions asked of the datatypes have
an answer: whether a value is of a datatype, and whether one datatype is a subtype of another.
-/
namespace SignalCatalog

/-- **The values of a class.**  Every number is a value of the classes of doubles, whole or not. -/
inductive TypeClass.Has : TypeClass → Value → Prop
  | unsigned {bits : Nat} {n : Int} : 0 ≤ n → n < 2 ^ bits → Has (.integer false bits) (.number (.int n))
  | signed {bits : Nat} {n : Int} : -2 ^ (bits - 1) ≤ n → n < 2 ^ (bits - 1) →
      Has (.integer true bits) (.number (.int n))
  | boolean (b : Bool) : Has .boolean (.bool b)
  | float (n : Number) : Has .float (.number n)
  | string (s : String) : Has .string (.string s)
  | numeric (n : Number) : Has .numeric (.number n)
  | struct (entries : Mapping) : Has .struct (.mapping entries)

namespace TypeClass

variable {c : TypeClass} {v : Value} {bits : Nat} {n : Int}

theorem has_unsigned_iff : Has (.integer false bits) (.number (.int n)) ↔ 0 ≤ n ∧ n < 2 ^ bits :=
  ⟨fun | .unsigned h h' => ⟨h, h'⟩, fun h => .unsigned h.1 h.2⟩

theorem has_signed_iff : Has (.integer true bits) (.number (.int n)) ↔ -2 ^ (bits - 1) ≤ n ∧ n < 2 ^ (bits - 1) :=
  ⟨fun | .signed h h' => ⟨h, h'⟩, fun h => .signed h.1 h.2⟩

theorem accepts_iff : c.accepts v = true ↔ c.Has v := by
  cases c with
  | integer signed bits =>
    cases v with
    | number n =>
      cases n with
      | int n =>
        cases signed
        · simp [accepts, inRange, has_unsigned_iff]
        · simp [accepts, inRange, has_signed_iff]
      | float x => exact iff_of_false (by simp [accepts]) (by rintro ⟨⟩)
    | _ => exact iff_of_false (by simp [accepts]) (by rintro ⟨⟩)
  | boolean =>
    cases v <;> first | exact iff_of_true rfl (.boolean _) | exact iff_of_false (by simp [accepts]) (by rintro ⟨⟩)
  | float =>
    cases v <;> first | exact iff_of_true rfl (.float _) | exact iff_of_false (by simp [accepts]) (by rintro ⟨⟩)
  | string =>
    cases v <;> first | exact iff_of_true rfl (.string _) | exact iff_of_false (by simp [accepts]) (by rintro ⟨⟩)
  | numeric =>
    cases v <;> first | exact iff_of_true rfl (.numeric _) | exact iff_of_false (by simp [accepts]) (by rintro ⟨⟩)
  | struct =>
    cases v <;> first | exact iff_of_true rfl (.struct _) | exact iff_of_false (by simp [accepts]) (by rintro ⟨⟩)

end TypeClass

namespace Datatype

variable {name : String}

theorem base_of_not_isArray (h : isArray name = false) : base name = name := by
  unfold base
  simp [h]

end Datatype

namespace Datatypes

variable {d : Datatypes} {name candidate : String} {t : Datatype} {v : Value} {b : Bool}

/-- **The values of a known name**: those of the datatype, or for an array form the lists of them. -/
def Holds (d : Datatypes) (name : String) (v : Value) : Prop :=
  ∃ t, d.lookup? name = some t ∧
    if Datatype.isArray name then ∃ items, v = .list items ∧ ∀ item ∈ items, t.typeClass.Has item else t.typeClass.Has v

theorem isKnown_iff : d.isKnown name = true ↔ Datatype.isArray (Datatype.base name) = false ∧
    ∃ t, d.lookup? name = some t := by
  rw [isKnown, Bool.and_eq_true, Bool.not_eq_true', Option.isSome_iff_exists]

theorem isKnown_base (h : d.isKnown name = true) : d.isKnown (Datatype.base name) = true := by
  obtain ⟨harray, t, ht⟩ := isKnown_iff.1 h
  rw [isKnown_iff, lookup?, Datatype.base_of_not_isArray harray]
  exact ⟨harray, t, ht⟩

theorem lookup?_base (h : d.isKnown name = true) : d.lookup? (Datatype.base name) = d.lookup? name := by
  rw [lookup?, lookup?, Datatype.base_of_not_isArray (isKnown_iff.1 h).1]

theorem require_of_isKnown (h : d.isKnown name = true) (ht : d.lookup? name = some t) : d.require name = .ok t := by
  unfold require
  rw [if_pos h, ht]

theorem exists_isValue (h : d.isKnown name = true) (v : Value) :
    ∃ b, d.isValue v name = .ok b ∧ (b = true ↔ d.Holds name v) := by
  obtain ⟨-, t, ht⟩ := isKnown_iff.1 h
  have hholds : d.Holds name v ↔
      if Datatype.isArray name then ∃ items, v = .list items ∧ ∀ item ∈ items, t.typeClass.Has item
      else t.typeClass.Has v := by
    simp [Holds, ht]
  unfold isValue
  rw [require_of_isKnown h ht, hholds]
  by_cases harray : Datatype.isArray name = true
  · cases v with
    | list items =>
      refine ⟨items.all t.typeClass.accepts, by simp [harray, bind, Except.bind, pure, Except.pure], ?_⟩
      simp [harray, TypeClass.accepts_iff]
    | _ => exact ⟨false, by simp [harray, bind, Except.bind, pure, Except.pure], by simp [harray]⟩
  · refine ⟨t.typeClass.accepts v, by simp [harray, bind, Except.bind, pure, Except.pure], ?_⟩
    simp [harray, TypeClass.accepts_iff]

theorem isValue_eq_ok_iff (h : d.isKnown name = true) : d.isValue v name = .ok b ↔ (b = true ↔ d.Holds name v) := by
  obtain ⟨b', hvalue, hb⟩ := exists_isValue h v
  rw [hvalue, Except.ok.injEq, ← hb]
  cases b <;> cases b' <;> simp

theorem isSubtype_of_isKnown (hc : d.isKnown candidate = true) (h : d.isKnown name = true)
    (ht : d.lookup? name = some t) :
    d.isSubtype candidate name = .ok (t.subtypes.contains (Datatype.base candidate)) := by
  obtain ⟨-, t', ht'⟩ := isKnown_iff.1 hc
  unfold isSubtype
  rw [require_of_isKnown hc ht', require_of_isKnown h ht]
  rfl

end Datatypes
end SignalCatalog
