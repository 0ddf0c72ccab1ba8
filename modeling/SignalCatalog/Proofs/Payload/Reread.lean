import Mathlib.Data.Option.Basic
import SignalCatalog.Payload.Same
import SignalCatalog.Proofs.Payload.Again
import SignalCatalog.Proofs.Payload.Valid
import SignalCatalog.Proofs.Value.Tags
/-!
# The raw form read back

A payload that is read from its own raw form has all its fields and further attributes again.  What can change are its
levels, which come back as they are declared, and the tags within allowed values and defaults, which are read from their
names once more.
-/
namespace SignalCatalog

/-! ## Values read again -/

namespace Value

variable {a b v : Value}

theorem same_reread (h : same a b = true) : same a.reread b.reread = true := by
  induction a using Value.induction generalizing b with
  | list items ih =>
    obtain ⟨bs, rfl, hab⟩ := same_list_iff.1 h
    rw [reread, reread, rereadItems_eq, rereadItems_eq]
    refine same_list_iff.2 ⟨_, rfl, List.forall₂_map_left_iff.2 (List.forall₂_map_right_iff.2 ?_)⟩
    exact ((List.forall₂_and_left _ _).2 ⟨ih, hab⟩).imp fun v w h => h.1 h.2
  | mapping entries ih =>
    obtain ⟨bs, rfl, hlen, hab⟩ := same_mapping_iff.1 h
    rw [reread, reread, rereadEntries_eq, rereadEntries_eq]
    refine same_mapping_iff.2 ⟨_, rfl, by simpa using hlen, ?_⟩
    simp only [List.forall_mem_map]
    intro e he
    obtain ⟨e', he', hk, hv⟩ := hab e he
    exact ⟨_, List.mem_map_of_mem he', (ih e he).1 hk, (ih e he).2 hv⟩
  | tagged tag v ih =>
    obtain ⟨w, rfl, hab⟩ := same_tagged_iff.1 h
    exact same_tagged_iff.2 ⟨w.reread, rfl, ih hab⟩
  | _ => cases b <;> exact h

theorem map_list_reread_eq_self {x : Option (List Value)} :
    x.map (List.map reread) = x ↔ ∀ l ∈ x, ∀ v ∈ l, v.Unmarked := by
  cases x with
  | none => simp
  | some l =>
    rw [Option.map_some, Option.some_inj, map_eq_self_iff]
    simp [reread_eq_self]

theorem map_reread_eq_self {x : Option Value} : x.map reread = x ↔ ∀ v ∈ x, v.Unmarked := by
  cases x with
  | none => simp
  | some v =>
    rw [Option.map_some, Option.some_inj, reread_eq_self]
    simp

theorem exists_list_reread : (∃ items, v.reread = .list items) ↔ ∃ items, v = .list items := by
  cases v <;> simp [reread]

end Value

theorem TypeClass.Has.reread {c : TypeClass} {v : Value} : c.Has v → c.Has v.reread
  | .unsigned h h' => .unsigned h h'
  | .signed h h' => .signed h h'
  | .boolean b => .boolean b
  | .float n => .float n
  | .string s => .string s
  | .numeric n => .numeric n
  | .struct entries => .struct (Value.rereadEntries entries)

theorem Datatypes.Holds.reread {d : Datatypes} {name : String} {v : Value} (h : d.Holds name v) :
    d.Holds name v.reread := by
  obtain ⟨t, ht, hholds⟩ := h
  refine ⟨t, ht, ?_⟩
  split at hholds
  · rename_i harray
    obtain ⟨items, rfl, hitems⟩ := hholds
    rw [if_pos harray, Value.reread, Value.rereadItems_eq]
    refine ⟨_, rfl, ?_⟩
    simp only [List.forall_mem_map]
    exact fun item hitem => (hitems item hitem).reread
  · rename_i harray
    rw [if_neg harray]
    exact hholds.reread

namespace DatatypeFields

variable {r : Registry} {f : DatatypeFields} {v : Value} {l : List Value}

def reread (f : DatatypeFields) : DatatypeFields :=
  { f with allowed := f.allowed.map (List.map Value.reread), default := f.default.map Value.reread }

theorem reread_eq_self_iff : f.reread = f ↔ (∀ l ∈ f.allowed, ∀ v ∈ l, v.Unmarked) ∧ ∀ v ∈ f.default, v.Unmarked := by
  rw [← Value.map_list_reread_eq_self, ← Value.map_reread_eq_self]
  obtain ⟨datatype, arraysize, min, max, unit, allowed, default⟩ := f
  simp [reread]

theorem defaultElements_reread (v : Value) : defaultElements v.reread = (defaultElements v).map Value.reread := by
  cases v with
  | list items => exact Value.rereadItems_eq items
  | _ => rfl

theorem DefaultFits.reread (h : f.DefaultFits r v) : f.reread.DefaultFits r v.reread where
  form := Value.exists_list_reread.trans h.form
  count := by
    intro size hsize items hitems
    obtain ⟨items', rfl⟩ := Value.exists_list_reread.1 ⟨items, hitems⟩
    rw [Value.reread, Value.rereadItems_eq] at hitems
    cases hitems
    rw [List.length_map]
    exact h.count size hsize items' rfl
  member := h.member.reread
  among := by
    rw [defaultElements_reread]
    simp only [DatatypeFields.reread, Option.forall_mem_map, List.forall_mem_map]
    intro allowed hallowed e he
    obtain ⟨a, ha, hsame⟩ := h.among allowed hallowed e he
    exact ⟨a.reread, List.mem_map_of_mem ha, Value.same_reread hsame⟩

theorem AllowedFits.reread (h : f.AllowedFits r l) : f.reread.AllowedFits r (l.map Value.reread) where
  member := by
    simp only [List.forall_mem_map]
    exact fun v hv => (h.member v hv).reread
  unbounded := h.unbounded

/-- **The rules hold of the values read again.** -/
theorem validate_reread (h : f.validate r = .ok ()) : f.reread.validate r = .ok () := by
  rw [validate_eq_ok_iff] at h ⊢
  obtain ⟨hknown, hsized, hdefault, hallowed, hunit⟩ := h
  exact ⟨hknown, hsized, Option.forall_mem_map.2 fun v hv => (hdefault v hv).reread,
    Option.forall_mem_map.2 fun l hl => (hallowed l hl).reread, hunit⟩

end DatatypeFields

namespace Payload

variable {r : Registry} {p q : Payload} {key : Key} {v : Value}

/-- **A payload with its levels as they are declared.** -/
def redeclared (p : Payload) : Payload :=
  match p.body with
  | .branch levels => { p with body := .branch (Level.redeclared levels) }
  | _ => p

/-- **A payload as its raw form is read**: levels as they are declared, and values read again. -/
def reread (p : Payload) : Payload :=
  match p.body with
  | .branch levels => { p with body := .branch (Level.redeclared levels) }
  | .attr f => { p with body := .attr f.reread }
  | .sensor f => { p with body := .sensor f.reread }
  | .actuator f => { p with body := .actuator f.reread }
  | .struct => p
  | .property f => { p with body := .property f.reread }

/-- **Values that can be read again**: no tags that lose a mark make two keys of a mapping one. -/
def Rereadable (p : Payload) : Prop := ∀ f ∈ p.datatypeFields?,
  (∀ l ∈ f.allowed, ∀ v ∈ l, v.reread.repeatsKey = false) ∧ ∀ v ∈ f.default, v.reread.repeatsKey = false

/-- **A payload with steady values**: no tag within its allowed values or its default is marked. -/
def Steady (p : Payload) : Prop :=
  ∀ f ∈ p.datatypeFields?, (∀ l ∈ f.allowed, ∀ v ∈ l, v.Unmarked) ∧ ∀ v ∈ f.default, v.Unmarked

theorem rewritten_values {x : Option (List Value)} :
    (Field.values x).rewritten = .values x ↔ ∀ l ∈ x, ∀ v ∈ l, v.Unmarked := by
  rw [Field.rewritten, Field.values.injEq, Value.map_list_reread_eq_self]

theorem rewritten_value {x : Option Value} : (Field.value x).rewritten = .value x ↔ ∀ v ∈ x, v.Unmarked := by
  rw [Field.rewritten, Field.value.injEq, Value.map_reread_eq_self]

theorem steady_iff : p.Steady ↔ (p.get .allowed).rewritten = p.get .allowed ∧
    (p.get .default).rewritten = p.get .default := by
  rw [Steady, get, get, rewritten_values, rewritten_value]
  cases p.datatypeFields? <;> simp

theorem kind_reread : p.reread.kind = p.kind := by
  obtain ⟨common, body⟩ := p
  cases body <;> rfl

theorem common_reread : p.reread.common = p.common := by
  obtain ⟨common, body⟩ := p
  cases body <;> rfl

theorem datatypeFields?_reread : p.reread.datatypeFields? = p.datatypeFields?.map DatatypeFields.reread := by
  obtain ⟨common, body⟩ := p
  cases body <;> rfl

theorem instances_redeclared : p.redeclared.instances = Level.redeclared p.instances := by
  obtain ⟨common, body⟩ := p
  cases body <;> rfl

theorem get_reread (p : Payload) (key : Key) : p.reread.get key = (p.get key).rewritten := by
  obtain ⟨common, body⟩ := p
  cases body <;> cases key <;> rfl

theorem validate_reread (h : p.validate r = .ok ()) : p.reread.validate r = .ok () := by
  rw [validate, check_bind_eq_ok_iff, DatatypeFields.ifPresent_eq_ok_iff] at h ⊢
  rw [checkConstUid, common_reread, datatypeFields?_reread]
  exact ⟨h.1, Option.forall_mem_map.2 fun f hf => DatatypeFields.validate_reread (h.2 f hf)⟩

theorem distinct_rewritten_values {x : Option (List Value)} :
    (Field.values x).rewritten.Distinct ↔ ∀ l ∈ x, ∀ v ∈ l, v.reread.repeatsKey = false := by
  cases x <;> simp [Field.rewritten, Field.Distinct]

theorem distinct_rewritten_value {x : Option Value} :
    (Field.value x).rewritten.Distinct ↔ ∀ v ∈ x, v.reread.repeatsKey = false := by
  cases x <;> simp [Field.rewritten, Field.Distinct]

theorem rereadable_iff : p.Rereadable ↔ ∀ key, (p.get key).rewritten.Distinct := by
  constructor
  · intro h key
    cases key with
    | allowed =>
      refine distinct_rewritten_values.2 fun l hl => ?_
      obtain ⟨f, hf, hl⟩ := Option.bind_eq_some_iff.1 hl
      exact (h f hf).1 l hl
    | default =>
      refine distinct_rewritten_value.2 fun v hv => ?_
      obtain ⟨f, hf, hv⟩ := Option.bind_eq_some_iff.1 hv
      exact (h f hf).2 v hv
    | _ => trivial
  · intro h f hf
    have hallowed := distinct_rewritten_values.1 (h .allowed)
    have hdefault := distinct_rewritten_value.1 (h .default)
    exact ⟨fun l hl => hallowed l (Option.bind_eq_some_iff.2 ⟨f, hf, hl⟩),
      fun v hv => hdefault v (Option.bind_eq_some_iff.2 ⟨f, hf, hv⟩)⟩

theorem Steady.rereadable (h : p.Steady) (hp : p.Checked r) : p.Rereadable := by
  refine rereadable_iff.2 fun key => ?_
  cases key with
  | allowed => exact (steady_iff.1 h).1.symm ▸ hp.distinct .allowed
  | default => exact (steady_iff.1 h).2.symm ▸ hp.distinct .default
  | _ => trivial

/-- **Steady values are those that come back.** -/
theorem reread_eq_redeclared_iff : p.reread = p.redeclared ↔ p.Steady := by
  obtain ⟨common, body⟩ := p
  cases body <;> simp [reread, redeclared, Steady, datatypeFields?, DatatypeFields.reread_eq_self_iff]

/-! ## Reading the raw form -/

/-- **The fields of the raw form**, each read where it is written. -/
theorem read_raw_key (hp : p.Checked r) (h : p.Rereadable) (hof : key.IsOf p.kind) :
    key.read p.raw = .ok (p.get key).rewritten := by
  have hm : p.raw.get? key.name = key.written (p.get key) := (get?_raw hp.toProper).trans (if_pos hof)
  cases hw : key.written (p.get key) with
  | none =>
    rw [written_eq_none.1 hw, key.rewritten_absent]
    exact read_of_get?_eq_none hof hw (hm.trans hw)
  | some w => exact read_of_written hp.nonnull hw (hm.trans hw) (rereadable_iff.1 h key)

/-- **A raw form that can be read** is read as the payload with its values read again. -/
theorem read_raw (hp : p.Checked r) (h : p.Rereadable) : read r (.mapping p.raw) = .ok p.reread := by
  have hextra : p.reread.common.extra = p.raw.filter fun e => !isDeclared p.reread.kind e.1 := by
    rw [kind_reread, common_reread]
    exact (filter_raw hp.toProper).symm
  have hget : ∀ key : Key, key.IsOf p.reread.kind → key.read p.raw = .ok (p.reread.get key) := by
    intro key hof
    rw [kind_reread] at hof
    rw [get_reread, read_raw_key hp h hof]
  exact read_of_readFields (readFields_of_get hextra hget) (validate_reread hp.valid)

theorem get_of_read_raw (hp : p.Proper) (h : read r (.mapping p.raw) = .ok q) :
    q.kind = p.kind ∧ ∀ key : Key, q.get key = (p.get key).rewritten := by
  obtain ⟨-, hget⟩ := get_of_readFields (readFields_of_read h)
  have hread (key : Key) (hof : key.IsOf p.kind) (hof' : key.IsOf q.kind) : q.get key = (p.get key).rewritten := by
    have hm : p.raw.get? key.name = key.written (p.get key) := (get?_raw hp).trans (if_pos hof)
    cases hw : key.written (p.get key) with
    | none =>
      have habsent := read_of_get?_eq_none hof hw (hm.trans hw)
      rw [hget key hof', Except.ok.injEq] at habsent
      rw [habsent, written_eq_none.1 hw, key.rewritten_absent]
    | some w => exact rewritten_of_read hp.nonnull hw (hm.trans hw) (hget key hof')
  have hkind : q.kind = p.kind :=
    Kind.name_inj (Option.some.inj (Field.text.inj (hread .type (Key.isOf_type _) (Key.isOf_type _))))
  refine ⟨hkind, fun key => ?_⟩
  by_cases hof : key.IsOf p.kind
  · exact hread key hof (hkind ▸ hof)
  · rw [get_of_not_isOf hof, get_of_not_isOf (hkind ▸ hof), key.rewritten_absent]

theorem rereadable_of_read (hp : p.Proper) (h : read r (.mapping p.raw) = .ok q) : p.Rereadable := by
  obtain ⟨-, hget⟩ := get_of_read_raw hp h
  refine rereadable_iff.2 fun key => ?_
  rw [← hget key]
  exact (checked_of_read (keyed_raw hp) h).distinct key

/-- **A payload that was read is read again from its raw form** as it was, with its levels as they are declared, just
when its values are steady.  Otherwise it comes back with its values read again, if they can be. -/
theorem read_again (hv : v.repeatsKey = false) (h : read r v = .ok p) :
    (read r (.mapping p.raw) = .ok p.redeclared ↔ p.Steady) ∧
      (∀ q, read r (.mapping p.raw) = .ok q ↔ p.Rereadable ∧ q = p.reread) ∧
      Level.parse (Level.declaration p.instances) = .ok p.redeclared.instances := by
  have hp := checked_of_read_value hv h
  have hexact (q : Payload) : read r (.mapping p.raw) = .ok q ↔ p.Rereadable ∧ q = p.reread := by
    constructor
    · intro hq
      have hagain := rereadable_of_read hp.toProper hq
      rw [read_raw hp hagain] at hq
      exact ⟨hagain, (Except.ok.inj hq).symm⟩
    · rintro ⟨hagain, rfl⟩
      exact read_raw hp hagain
  refine ⟨?_, hexact, ?_⟩
  · rw [hexact, eq_comm, reread_eq_redeclared_iff]
    exact ⟨And.right, fun hsteady => ⟨hsteady.rereadable hp, hsteady⟩⟩
  · rw [instances_redeclared, Level.parse_declaration]

def seatEntries (tag : String) : Mapping :=
  [(.string "type", .string "attribute"), (.string "maker", .string "acme"), (.string "datatype", .string "Types.Seat"),
    (.string "description", .string "seat"), (.string "default",
      .mapping [(.string "heat", .tagged ⟨tag⟩ (.string "on"))])]

def heatedSeat (tag : String) : Payload where
  common := { description := "seat", extra := [(.string "maker", .string "acme")] }
  body := .attr
    { datatype := "Types.Seat", default := some (.mapping [(.string "heat", .tagged ⟨tag⟩ (.string "on"))]) }

def seatTypes : Registry := { datatypes := .ofStructs ["Types.Seat"] (Eq.refl true) }

/-- A tag without a mark in its name stays. -/
theorem read_seat_again : read seatTypes (.mapping (seatEntries "low")) = .ok (heatedSeat "low") ∧
    read seatTypes (.mapping (heatedSeat "low").raw) = .ok (heatedSeat "low") := by
  have hread : read seatTypes (.mapping (seatEntries "low")) = .ok (heatedSeat "low") := by rfl
  have hsteady : (heatedSeat "low").Steady := steady_iff.2 ⟨rfl, rfl⟩
  exact ⟨hread, (read_again (by decide) hread).1.2 hsteady⟩

/-- **A tag whose name begins with a mark** is another when the payload is read again. -/
theorem read_seat_unmarked : read seatTypes (.mapping (seatEntries "!!low")) = .ok (heatedSeat "!low") ∧
    read seatTypes (.mapping (heatedSeat "!low").raw) = .ok (heatedSeat "low") ∧
    (heatedSeat "low").same (heatedSeat "!low") = false := by
  refine ⟨rfl, rfl, by decide⟩

end Payload
end SignalCatalog
