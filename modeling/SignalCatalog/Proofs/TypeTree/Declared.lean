import SignalCatalog.Proofs.Build.Repeated
import SignalCatalog.Proofs.Payload.Again
import SignalCatalog.Proofs.Value.Typed
import SignalCatalog.TypeTree
/-!
# What type files declare

The kind and the mark of an entry are seen before any tree is built.  In one file the last entry of a name counts,
unless it or one above it is marked for removal; of several files the last one that keeps an entry of a name counts.
-/
namespace SignalCatalog
namespace TypeTree

open Builder (enter)

variable {r : Registry} {v : Value} {p : Payload} {data : Mapping} {sheets : List Mapping}
  {declared entries : List (String × Payload)} {name : String}

def kindOf? (v : Value) : Option Kind :=
  ((v.asMapping?.bind fun m => m.get? "type").bind Value.asString?).bind Kind.ofName?

def isMarked (v : Value) : Bool :=
  match (v.asMapping?.bind fun m => m.get? "delete").map Value.untagged with
  | some (.bool b) => b
  | _ => false

/-- **The last entry of a name** in a file. -/
def declared? : Mapping → String → Option Value
  | [], _ => none
  | e :: rest, name => (declared? rest name).or (if e.1.asString? = some name then some e.2 else none)

/-- **The entry of a name that a file keeps**: neither it nor any entry above it is marked, the root aside. -/
def kept? (data : Mapping) (name : String) : Option Value :=
  if (name :: QualifiedName.ancestors name).any fun n =>
    QualifiedName.isQualified n && (declared? data n).any isMarked then none
  else declared? data name

/-- **The entry of a name that counts**, which is of the last file that keeps one. -/
def last? : List Mapping → String → Option Value
  | [], _ => none
  | data :: rest, name => (last? rest name).or (kept? data name)

theorem last?_concat : last? (sheets ++ [data]) name = (kept? data name).or (last? sheets name) := by
  induction sheets with
  | nil => simp [last?]
  | cons sheet sheets ih => rw [List.cons_append, last?, last?, ih, Option.or_assoc]

/-! ## Entries and payloads -/

theorem isStruct_iff : isStruct v = true ↔ kindOf? v = some .struct := by
  rw [isStruct, kindOf?, beq_iff_eq]
  cases (v.asMapping?.bind fun m => m.get? "type").bind Value.asString? with
  | none => simp
  | some s =>
    rw [Option.bind_some, Kind.ofName?_eq_some_iff, Option.some_inj]
    exact eq_comm

theorem kind_and_mark_of_read (h : Payload.read r v = .ok p) :
    kindOf? v = some p.kind ∧ isMarked v = p.common.delete := by
  rw [Payload.read] at h
  rw [kindOf?, isMarked]
  split at h
  · cases h
  · rename_i m hm
    obtain ⟨p', hfields, h⟩ := exists_of_bind_eq_ok h
    obtain ⟨-, -, h⟩ := exists_of_bind_eq_ok h
    cases h
    obtain ⟨-, hget⟩ := Payload.get_of_readFields hfields
    rw [hm]
    constructor
    · obtain ⟨k, hk, heq⟩ := exists_of_map_eq_ok (hget .type (Payload.Key.isOf_type _))
      obtain ⟨name, hname, hkind⟩ := Payload.kind_of_readKind hk
      obtain ⟨w, hw, -, hread⟩ := Payload.exists_of_field (Payload.field_of_required hname)
      have hsame : k = p.kind := Kind.name_inj (Option.some.inj (Payload.Field.text.inj heq))
      rw [Option.bind_some, hw, Option.bind_some, Value.asString?, Value.readString_eq_ok_iff.1 hread,
        Option.bind_some, hkind, hsame]
    · obtain ⟨x, hx, heq⟩ :=
        exists_of_map_eq_ok (hget .delete (by simp [Payload.Key.isOf_iff, Payload.Key.name, Kind.commonKeys]))
      have hflag : x.getD false = p.common.delete := Payload.Field.flag.inj heq
      rw [Option.bind_some, ← hflag]
      cases x with
      | some b =>
        obtain ⟨w, hw, -, hread⟩ := Payload.exists_of_field hx
        rw [hw, Option.map_some, Value.readBool_eq_ok_iff.1 hread]
        rfl
      | none =>
        rw [Payload.field] at hx
        split at hx
        · rename_i hnone
          rw [hnone]
          rfl
        · rename_i hnull
          rw [hnull]
          rfl
        · split at hx <;> cases hx

/-- **The entries of a build are the last ones of their names.** -/
theorem mem_foldl_enter (h : List.Forall₂ (NamedAs r) data declared) : (name, p) ∈ declared.foldl enter entries ↔
    (∃ v, declared? data name = some v ∧ Payload.read r v = .ok p) ∨ declared? data name = none ∧
    (name, p) ∈ entries := by
  induction h generalizing entries with
  | nil => simp [declared?]
  | @cons e d data declared hed _ ih =>
    obtain ⟨fqn, pl⟩ := d
    obtain ⟨hname, hread⟩ := hed
    rw [List.foldl_cons, ih, declared?]
    cases hlater : declared? data name with
    | some v => simp
    | none =>
      rw [Builder.mem_enter, hname]
      by_cases heq : fqn = name
      · subst heq
        simp only [Option.none_or, if_true, Option.some_inj, reduceCtorEq, false_and, exists_false, false_or, true_and,
          ne_eq, not_true_eq_false, and_false, or_false, exists_eq_left', Prod.mk.injEq]
        rw [hread, Except.ok.injEq, eq_comm]
      · have hne : name ≠ fqn := fun h => heq h.symm
        simp [heq, hne]

end TypeTree
end SignalCatalog
