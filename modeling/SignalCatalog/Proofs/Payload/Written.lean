import SignalCatalog.Proofs.Payload.Fields
/-!
# The raw form

The raw form of a payload has each field at its key, those as if absent left out, and the further attributes at theirs.
What is written for a field is read as that field again, up to the tags of its values and the way its levels are
declared.
-/
namespace SignalCatalog
namespace Payload

variable {r : Registry} {m : Mapping} {p : Payload} {key : Key} {f : Field} {v w : Value}

/-- **What every payload that was read satisfies**: its further attributes have each key once and are no fields, and no
default is null. -/
structure Proper (p : Payload) : Prop where
  keyed : p.common.extra.Keyed
  foreign : ∀ e ∈ p.common.extra, isDeclared p.kind e.1 = false
  nonnull : p.get .default ≠ .value (some .null)

def flagEntries (p : Payload) : Mapping :=
  optional "delete" .bool (if p.common.delete then some true else none) ++
    optional "instantiate" .bool (if p.common.instantiate then none else some false)

theorem raw_eq (p : Payload) : p.raw = Mapping.extend (Mapping.extend p.fieldEntries p.common.extra) p.flagEntries := by
  rw [raw, flagEntries]
  cases p.common.delete <;> cases p.common.instantiate <;> rfl

/-! ## What is written -/

theorem Key.written_absent (key : Key) : key.written key.absent = none := by cases key <;> rfl

theorem written_eq_none : key.written (p.get key) = none ↔ p.get key = key.absent := by
  constructor
  · cases key with
    | arraysize =>
      rw [get]
      cases p.datatypeFields?.bind (·.arraysize) <;> simp [Key.written, Key.absent]
    | _ => simp [Key.written, get, Key.absent]
  · intro h
    rw [h, key.written_absent]

theorem get?_optional {α : Type} (name s : String) (write : α → Value) (o : Option α) :
    Mapping.get? (optional name write o) s = if s = name then o.map write else none := by
  cases o <;> simp [optional, Mapping.get?, Mapping.lookup?, Value.same, List.find?_cons]
  split <;> simp_all

theorem get?_unlessEmpty {α : Type} (name s : String) (write : List α → Value) (l : List α) :
    Mapping.get? (unlessEmpty name write l) s =
      if s = name then (if l.isEmpty then none else some (write l)) else none := by
  rw [unlessEmpty]
  cases l <;> simp [Mapping.get?, Mapping.lookup?, Value.same, List.find?_cons]
  split <;> simp_all

theorem get?_append (m m' : Mapping) (s : String) : Mapping.get? (m ++ m') s = (m.get? s).or (m'.get? s) :=
  Mapping.lookup?_append

theorem get?_cons (name s : String) (v : Value) (m : Mapping) :
    Mapping.get? ((.string name, v) :: m) s = if s = name then some v else m.get? s := by
  rw [Mapping.get?, Mapping.lookup?_cons]
  simp [Value.same, Mapping.get?]

/-- **Every field is written at its key**, unless it is as if absent. -/
theorem get?_entries (p : Payload) (key : Key) :
    (p.flagEntries.get? key.name).or (p.fieldEntries.get? key.name) = key.written (p.get key) := by
  rw [flagEntries, fieldEntries]
  cases hf : p.datatypeFields? <;> cases key <;>
    simp [Key.name, Key.written, get, datatype?, hf, get?_append, get?_cons, get?_optional,
      get?_unlessEmpty, datatypeEntries, apply_ite (Option.map Value.bool)]

/-! ## Keys -/

/-- Entries at some of the keys of a list, in its order. -/
def At (keys : List Key) (m : Mapping) : Prop := List.Sublist (m.map (·.1)) (keys.map fun key => .string key.name)

theorem at_singleton (key : Key) (v : Value) : At [key] [(.string key.name, v)] := List.Sublist.refl _

theorem at_optional {α : Type} (key : Key) (write : α → Value) (o : Option α) :
    At [key] (optional key.name write o) := by
  cases o with
  | none => exact List.nil_sublist _
  | some a => exact List.Sublist.refl _

theorem at_unlessEmpty {α : Type} (key : Key) (write : List α → Value) (l : List α) :
    At [key] (unlessEmpty key.name write l) := by
  rw [unlessEmpty]
  split
  · exact List.nil_sublist _
  · exact List.Sublist.refl _

theorem At.append {m m' : Mapping} {keys keys' : List Key} (h : At keys m) (h' : At keys' m') :
    At (keys ++ keys') (m ++ m') := by
  rw [At, List.map_append, List.map_append]
  exact List.Sublist.append h h'

theorem At.exists_of_mem {keys : List Key} {e : Value × Value} (h : At keys m) (he : e ∈ m) :
    ∃ key : Key, e.1 = .string key.name := by
  obtain ⟨key, -, heq⟩ := List.mem_map.1 (h.subset (List.mem_map_of_mem he))
  exact ⟨key, heq.symm⟩

theorem At.keyed {keys : List Key} (h : At keys m) (hkeys : (keys.map Key.name).Nodup) : m.Keyed := by
  refine ⟨?_, fun e he => ?_⟩
  · have hnodup : (keys.map fun key => Value.string key.name).Nodup :=
      List.pairwise_map.2 ((List.pairwise_map.1 hkeys).imp fun hab heq => hab (Value.string.inj heq))
    refine List.Pairwise.imp_of_mem (fun {a b} ha _ hab => ?_) (List.pairwise_map.1 (h.nodup hnodup))
    obtain ⟨key, hkey⟩ := h.exists_of_mem ha
    rw [hkey, ← Bool.not_eq_true, Value.same_string_iff, ← hkey]
    exact fun heq => hab heq.symm
  · obtain ⟨key, hkey⟩ := h.exists_of_mem he
    rw [hkey]
    rfl

theorem at_datatypeEntries (fields : DatatypeFields) :
    At [.datatype, .arraysize, .min, .max, .unit, .allowed, .default] (datatypeEntries fields) :=
  ((((((at_singleton .datatype _).append (at_optional .arraysize _ _)).append (at_optional .min _ _)).append
    (at_optional .max _ _)).append (at_optional .unit _ _)).append (at_optional .allowed _ _)).append
    (at_optional .default _ _)

theorem at_fieldEntries (p : Payload) :
    At ([.type, .description, .comment] ++ [.datatype, .arraysize, .min, .max, .unit, .allowed, .default] ++
      [.deprecation, .constUid, .fka, .instances]) p.fieldEntries := by
  have hdatatype : At [.datatype, .arraysize, .min, .max, .unit, .allowed, .default]
      ((p.datatypeFields?.map datatypeEntries).getD []) := by
    cases p.datatypeFields? with
    | none => exact List.nil_sublist _
    | some fields => exact at_datatypeEntries fields
  have hfirst :=
    (at_singleton .type (.string p.kind.name)).append (at_singleton .description (.string p.common.description))
  exact (((((hfirst.append (at_optional .comment _ _)).append hdatatype).append (at_optional .deprecation _ _)).append
    (at_optional .constUid _ _)).append (at_unlessEmpty .fka _ _)).append (at_unlessEmpty .instances _ _)

theorem at_flagEntries (p : Payload) : At [.delete, .instantiate] p.flagEntries :=
  (at_optional .delete _ _).append (at_optional .instantiate _ _)

theorem keyed_fieldEntries (p : Payload) : p.fieldEntries.Keyed := p.at_fieldEntries.keyed (by decide)

theorem keyed_flagEntries (p : Payload) : p.flagEntries.Keyed := p.at_flagEntries.keyed (by decide)

theorem keyed_raw (hp : p.Proper) : p.raw.Keyed := by
  rw [raw_eq]
  exact (p.keyed_fieldEntries.extend hp.keyed).extend p.keyed_flagEntries

theorem exists_of_mem_entries {e : Value × Value} (he : e ∈ p.flagEntries ∨ e ∈ p.fieldEntries) :
    ∃ key : Key, e.1 = .string key.name ∧ key.IsOf p.kind := by
  obtain ⟨key, hkey⟩ := he.elim p.at_flagEntries.exists_of_mem p.at_fieldEntries.exists_of_mem
  refine ⟨key, hkey, ?_⟩
  by_contra hof
  -- a field that is as if absent has no entry
  have hnone := p.get?_entries key
  rw [get_of_not_isOf hof, key.written_absent, Option.or_eq_none_iff] at hnone
  rcases he with he | he
  · exact Mapping.get?_eq_none.1 hnone.1 e he hkey
  · exact Mapping.get?_eq_none.1 hnone.2 e he hkey

theorem same_eq_false_of_mem_extra {e e' : Value × Value} (hp : p.Proper) (he : e ∈ p.common.extra)
    (he' : e' ∈ p.flagEntries ∨ e' ∈ p.fieldEntries) : e'.1.same e.1 = false := by
  obtain ⟨key, hkey, hof⟩ := exists_of_mem_entries he'
  rw [hkey, ← Bool.not_eq_true, Value.same_string_iff]
  intro heq
  have hforeign := hp.foreign e he
  rw [heq, isDeclared_name.2 hof] at hforeign
  cases hforeign

/-- **The raw form in its order**: the fields, the further attributes and the flags. -/
theorem raw_eq_append (hp : p.Proper) : p.raw = p.fieldEntries ++ p.common.extra ++ p.flagEntries := by
  have hfields : (p.fieldEntries ++ p.common.extra).Keyed :=
    Mapping.keyed_append.2 ⟨p.keyed_fieldEntries, hp.keyed,
      fun e he e' he' => same_eq_false_of_mem_extra hp he' (.inr he)⟩
  have hboth : (p.fieldEntries ++ p.flagEntries).Keyed := (p.at_fieldEntries.append p.at_flagEntries).keyed (by decide)
  have hall : (p.fieldEntries ++ p.common.extra ++ p.flagEntries).Keyed := by
    refine Mapping.keyed_append.2 ⟨hfields, p.keyed_flagEntries, fun e he e' he' => ?_⟩
    rcases List.mem_append.1 he with he | he
    · exact (Mapping.keyed_append.1 hboth).2.2 e he e' he'
    · rw [Mapping.same_comm (hp.keyed.keys e he) (p.keyed_flagEntries.keys e' he')]
      exact same_eq_false_of_mem_extra hp he (.inl he')
  rw [raw_eq, Mapping.extend_of_keyed hfields, Mapping.extend_of_keyed hall]

/-! ## Look-ups -/

theorem lookup?_raw (hp : p.Proper) (hv : v.repeatsKey = false)
    (h : ∀ key : Key, key.IsOf p.kind → v ≠ .string key.name) :
    p.raw.lookup? v = p.common.extra.lookup? v := by
  have hnone : ∀ e, e ∈ p.flagEntries ∨ e ∈ p.fieldEntries → v.same e.1 = false := by
    intro e he
    obtain ⟨key, hkey, hof⟩ := exists_of_mem_entries he
    rw [hkey, ← Bool.not_eq_true]
    intro hsame
    have hsymm := Value.same_symm hv (by rfl) hsame
    exact h key hof ((Value.same_string_iff _ _).1 hsymm)
  rw [raw_eq, Mapping.lookup?_extend (p.keyed_fieldEntries.extend hp.keyed) p.keyed_flagEntries hv,
    Mapping.lookup?_extend p.keyed_fieldEntries hp.keyed hv, Mapping.lookup?_eq_none.2 fun e he => hnone e (.inl he),
    Mapping.lookup?_eq_none.2 fun e he => hnone e (.inr he), Option.none_or, Option.or_none]

/-- **The raw form at a key**: the field where the kind declares the key, and else the further attribute. -/
theorem get?_raw (hp : p.Proper) :
    p.raw.get? key.name = if key.IsOf p.kind then key.written (p.get key) else p.common.extra.get? key.name := by
  split
  · rename_i hof
    have hnone : p.common.extra.get? key.name = none := by
      refine Mapping.get?_eq_none.2 fun e he hname => ?_
      have := hp.foreign e he
      rw [hname, isDeclared_name.2 hof] at this
      cases this
    rw [← get?_entries, raw_eq, Mapping.get?, Mapping.lookup?_extend (p.keyed_fieldEntries.extend hp.keyed)
      p.keyed_flagEntries rfl,
      Mapping.lookup?_extend p.keyed_fieldEntries hp.keyed rfl, ← Mapping.get?, ← Mapping.get?, ← Mapping.get?,
      hnone, Option.none_or]
  · rename_i hof
    refine lookup?_raw hp rfl fun key' hof' heq => hof ?_
    rw [Key.IsOf, Value.string.inj heq]
    exact hof'

/-! ## Reading back -/

theorem mapM_readString (l : List String) : (l.map Value.string).mapM Value.readString = .ok l := by
  induction l with
  | nil => rfl
  | cons s l ih =>
    rw [List.map_cons, List.mapM_cons, ih]
    rfl

theorem readStrings_strings (l : List String) : Value.readStrings (strings l) = .ok l := mapM_readString l

theorem mapM_readValue {l l' : List Value} (h : l.mapM Value.readValue = .ok l') : l' = l.map Value.reread := by
  induction l generalizing l' with
  | nil =>
    cases h
    rfl
  | cons v l ih =>
    rw [List.mapM_cons] at h
    obtain ⟨w, hw, h⟩ := exists_of_bind_eq_ok h
    obtain ⟨rest, hrest, h⟩ := exists_of_bind_eq_ok h
    cases h
    rw [reread_of_readValue hw, ih hrest]
    rfl

theorem field_eq_ok {α : Type} {read : Value → Except Mismatch α} {name : String} {x : Option α}
    (hm : m.get? name = some v) (hv : v ≠ .null) (h : field read m name = .ok x) :
    ∃ a, read v = .ok a ∧ x = some a := by
  rw [field, hm] at h
  cases hread : read v with
  | error => cases v <;> first | exact absurd rfl hv | simp [hread] at h
  | ok a => cases v <;> first | exact absurd rfl hv | (simp [hread] at h; exact ⟨a, rfl, h.symm⟩)

theorem field_of_required {α : Type} {read : Value → Except Mismatch α} {name : String} {a : α}
    (h : required read m name = .ok a) :
    field read m name = .ok (some a) := by
  rw [required] at h
  obtain ⟨x, hx, h⟩ := exists_of_bind_eq_ok h
  cases x with
  | none => cases h
  | some b =>
    cases h
    exact hx

theorem kind_of_readKind {k : Kind} (h : readKind m = .ok k) :
    ∃ name, required Value.readString m "type" = .ok name ∧ Kind.ofName? name = some k := by
  rw [readKind] at h
  obtain ⟨name, hname, h⟩ := exists_of_bind_eq_ok h
  refine ⟨name, hname, ?_⟩
  cases hk : Kind.ofName? name with
  | none =>
    rw [hk] at h
    cases h
  | some k' =>
    rw [hk] at h
    cases h
    rfl

theorem field_of_written {α : Type} {read : Value → Except Mismatch α} {write : α → Value}
    {name : String} {o x : Option α} (hread : ∀ a, read (write a) = .ok a) (hnull : ∀ a, write a ≠ .null)
    (hw : o.map write = some w) (hm : m.get? name = some w) (hx : field read m name = .ok x) : x = o := by
  obtain ⟨a, rfl, rfl⟩ := Option.map_eq_some_iff.1 hw
  obtain ⟨b, hb, rfl⟩ := field_eq_ok hm (hnull a) hx
  rw [hread, Except.ok.injEq] at hb
  rw [hb]

theorem text_of_written {name : String} {o x : Option String} (hw : o.map .string = some w) (hm : m.get? name = some w)
    (hx : field Value.readString m name = .ok x) : x = o := field_of_written (fun _ => rfl) (by simp) hw hm hx

theorem number_of_written {name : String} {o x : Option Number} (hw : o.map .number = some w)
    (hm : m.get? name = some w) (hx : field Value.readNumber m name = .ok x) : x = o :=
  field_of_written (fun _ => rfl) (by simp) hw hm hx

theorem flag_of_written {name : String} {b : Bool} {x : Option Bool} (hm : m.get? name = some (.bool b))
    (hx : field Value.readBool m name = .ok x) : x = some b :=
  field_of_written (o := some b) (fun _ => rfl) (by simp) rfl hm hx

/-- **A written field is read back.** -/
theorem rewritten_of_read (hnonnull : p.get .default ≠ .value (some .null)) (hw : key.written (p.get key) = some w)
    (hm : m.get? key.name = some w) (hf : key.read m = .ok f) : f = (p.get key).rewritten := by
  cases key with
  | type =>
    obtain ⟨k, hk, rfl⟩ := exists_of_map_eq_ok hf
    obtain ⟨name, hname, hk⟩ := kind_of_readKind hk
    cases text_of_written (o := some p.kind.name) hw hm (field_of_required hname)
    rw [Kind.ofName?_name] at hk
    cases hk
    rfl
  | description =>
    obtain ⟨s, hs, rfl⟩ := exists_of_map_eq_ok hf
    rw [text_of_written (o := some p.common.description) hw hm (field_of_required hs)]
    rfl
  | datatype =>
    obtain ⟨s, hs, rfl⟩ := exists_of_map_eq_ok hf
    rw [text_of_written hw hm (field_of_required hs)]
    rfl
  | comment | deprecation | constUid | unit =>
    obtain ⟨x, hx, rfl⟩ := exists_of_map_eq_ok hf
    rw [text_of_written hw hm hx]
    rfl
  | min | max =>
    obtain ⟨x, hx, rfl⟩ := exists_of_map_eq_ok hf
    rw [number_of_written hw hm hx]
    rfl
  | arraysize =>
    obtain ⟨x, hx, rfl⟩ := exists_of_map_eq_ok hf
    rw [field_of_written (fun n => by simp [Value.readCount, Value.untagged]) (by simp) hw hm hx]
    rfl
  | delete =>
    obtain ⟨x, hx, rfl⟩ := exists_of_map_eq_ok hf
    obtain ⟨hb, rfl⟩ : p.common.delete = true ∧ Value.bool true = w := by simpa [Key.written, get] using hw
    rw [flag_of_written hm hx, get, hb]
    rfl
  | instantiate =>
    obtain ⟨x, hx, rfl⟩ := exists_of_map_eq_ok hf
    obtain ⟨hb, rfl⟩ : p.common.instantiate = false ∧ Value.bool false = w := by simpa [Key.written, get] using hw
    rw [flag_of_written hm hx, get, hb]
    rfl
  | fka =>
    obtain ⟨x, hx, rfl⟩ := exists_of_map_eq_ok hf
    obtain ⟨hne, rfl⟩ : p.common.fka ≠ [] ∧ strings p.common.fka = w := by simpa [Key.written, get] using hw
    obtain ⟨l, hl, rfl⟩ := field_eq_ok hm (by simp [strings]) hx
    rw [readStrings_strings, Except.ok.injEq] at hl
    rw [← hl]
    rfl
  | allowed =>
    obtain ⟨x, hx, rfl⟩ := exists_of_map_eq_ok hf
    obtain ⟨l, hl, rfl⟩ := Option.map_eq_some_iff.1 hw
    obtain ⟨l', hl', rfl⟩ := field_eq_ok hm (by simp) hx
    rw [get, hl, mapM_readValue hl']
    rfl
  | default =>
    obtain ⟨x, hx, rfl⟩ := exists_of_map_eq_ok hf
    have hw : p.datatypeFields?.bind (·.default) = some w := hw
    have hnull : w ≠ .null := by
      rintro rfl
      exact hnonnull (congrArg Field.value hw)
    obtain ⟨v, hv, rfl⟩ := field_eq_ok hm hnull hx
    rw [get, hw, reread_of_readValue hv]
    rfl
  | instances =>
    obtain ⟨levels, hlevels, rfl⟩ := exists_of_map_eq_ok hf
    obtain ⟨hne, rfl⟩ : p.instances ≠ [] ∧ Level.declaration p.instances = w := by simpa [Key.written, get] using hw
    rw [Key.name] at hm
    rw [readInstances, hm] at hlevels
    simp only [Level.parse_declaration, Except.ok.injEq] at hlevels
    rw [← hlevels]
    rfl

theorem proper_of_read (hm : m.Keyed) (h : read r (.mapping m) = .ok p) : p.Proper := by
  obtain ⟨hextra, hget⟩ := get_of_readFields (readFields_of_read h)
  refine ⟨?_, fun e he => ?_, fun hnull => ?_⟩
  · rw [hextra]
    exact hm.sublist List.filter_sublist
  · rw [hextra] at he
    simpa using (List.mem_filter.1 he).2
  · by_cases hof : Key.IsOf .default p.kind
    · obtain ⟨x, hx, hxp⟩ := exists_of_map_eq_ok (hget .default hof)
      rw [hnull, Field.value.injEq] at hxp
      by_cases hgives : m.Gives "default"
      · obtain ⟨v, hv, hvnull⟩ := hgives
        obtain ⟨w, hw, rfl⟩ := field_eq_ok hv hvnull hx
        exact reread_ne_null hvnull (by rw [← reread_of_readValue hw, Option.some.inj hxp])
      · rw [field_of_not_gives hgives, hxp] at hx
        cases hx
    · rw [get_of_not_isOf hof] at hnull
      cases hnull

theorem proper_placeholder : Proper .placeholder :=
  ⟨Mapping.keyed_nil, by simp [placeholder, branch], by simp [get, placeholder, branch, datatypeFields?]⟩

theorem Proper.clearInstances (h : p.Proper) : p.clearInstances.Proper := by
  obtain ⟨common, body⟩ := p
  cases body with
  | branch levels => exact ⟨h.keyed, h.foreign, by simp [Payload.clearInstances, get, datatypeFields?]⟩
  | _ => exact h

end Payload
end SignalCatalog
