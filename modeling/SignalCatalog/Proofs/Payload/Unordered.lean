import SignalCatalog.Proofs.Payload.Fields
/-!
# Reading without regard to order and nulls

Every field is read at its own key, where a null is the same as no value, and always in the same order.  So the order of
a mapping's entries shows in the further attributes only, and a null at the key of a field does not show at all.
-/
namespace SignalCatalog

/-- **The value that a mapping gives a key**, if it is not null. -/
def Mapping.given? (m : Mapping) (name : String) : Option Value :=
  match m.get? name with
  | some .null => none
  | v => v

namespace Payload

variable {r : Registry} {m m' declared declared' : Mapping} {names : List String} {name : String}
  {k : Kind} {raw raw' : Value}

/-! ## Fields by what is given -/

theorem field_eq_given {α : Type} (read : Value → Except Mismatch α) (m : Mapping) (name : String) : field read m name =
    match m.given? name with
    | none => .ok none
    | some v =>
      match read v with
      | .ok a => .ok (some a)
      | .error cause => .error (.invalidField name (.mismatch cause)) := by
  rw [field, Mapping.given?]
  cases m.get? name with
  | none => rfl
  | some v => cases v <;> rfl

theorem readInstances_eq_given (m : Mapping) : readInstances m =
    match m.given? "instances" with
    | none => .ok []
    | some v =>
      match Level.parse v with
      | .ok levels => .ok levels
      | .error cause => .error (.invalidField "instances" (.declaration cause)) := by
  rw [readInstances, Mapping.given?]
  cases m.get? "instances" with
  | none => rfl
  | some v => cases v <;> rfl

theorem readKind_congr (h : m.given? "type" = m'.given? "type") : readKind m = readKind m' := by
  simp only [readKind, required, field_eq_given, h]

theorem readCommon_congr (h : ∀ name, declared.given? name = declared'.given? name) (extra extra' : Mapping) :
    readCommon declared' extra' = (fun c => { c with extra := extra' }) <$> readCommon declared extra := by
  simp only [readCommon, required, field_eq_given, h, map_bind, map_pure]

theorem readBody_congr (h : ∀ name, declared.given? name = declared'.given? name) (k : Kind) :
    readBody declared k = readBody declared' k := by
  cases k <;> simp only [readBody, readInstances_eq_given, readDatatypeFields, required, field_eq_given, h]

/-! ## Answers -/

def withExtra (p : Payload) (extra : Mapping) : Payload := { p with common := { p.common with extra } }

theorem validate_withExtra (p : Payload) (extra : Mapping) : (p.withExtra extra).validate r = p.validate r := rfl

/-- **The same answer**: the same error, or the same payload with its further attributes compared as mappings. -/
inductive SameAnswer : Except PayloadError Payload → Except PayloadError Payload → Prop
  | refused (e : PayloadError) : SameAnswer (.error e) (.error e)
  | accepted (p : Payload) {extra : Mapping} : List.Perm p.common.extra extra →
      SameAnswer (.ok p) (.ok (p.withExtra extra))

/-- **Fields are read alike** where the kind is, the fields of the kind are given alike and the other entries are
the same. -/
theorem sameAnswer_readFields (hkind : readKind m = readKind m')
    (hgiven : ∀ k, readKind m = .ok k → ∀ name,
      Mapping.given? (m.filter fun e => isDeclared k e.1) name =
        Mapping.given? (m'.filter fun e => isDeclared k e.1) name)
    (hextra : ∀ k, readKind m = .ok k →
      List.Perm (m.filter fun e => !isDeclared k e.1) (m'.filter fun e => !isDeclared k e.1)) :
    SameAnswer (readFields m) (readFields m') := by
  rw [readFields, readFields, ← hkind]
  cases hk : readKind m with
  | error e => exact .refused e
  | ok k =>
    change SameAnswer (readCommon _ _ >>= fun common => readBody _ k >>= fun body => pure { common, body })
      (readCommon _ _ >>= fun common => readBody _ k >>= fun body => pure { common, body })
    rw [readCommon_congr (hgiven k hk) (m.filter fun e => !isDeclared k e.1), ← readBody_congr (hgiven k hk)]
    cases hcommon : readCommon (m.filter fun e => isDeclared k e.1) (m.filter fun e => !isDeclared k e.1) with
    | error e => exact .refused e
    | ok common =>
      have hpart : common.extra = m.filter fun e => !isDeclared k e.1 := (get_of_readCommon hcommon).1
      cases hbody : readBody (m.filter fun e => isDeclared k e.1) k with
      | error e => exact .refused e
      | ok body => exact .accepted ⟨common, body⟩ (hpart ▸ hextra k hk)

theorem SameAnswer.read (h : SameAnswer (readFields m) (readFields m')) (hraw : raw.asMapping? = some m)
    (hraw' : raw'.asMapping? = some m') :
    SameAnswer (Payload.read r raw) (Payload.read r raw') := by
  rw [Payload.read, Payload.read, hraw, hraw']
  dsimp only
  generalize readFields m = x at h
  generalize readFields m' = y at h
  cases h with
  | refused e => exact .refused e
  | accepted p hp =>
    change SameAnswer (p.validate r >>= fun _ => pure p) ((p.withExtra _).validate r >>= fun _ => pure (p.withExtra _))
    rw [validate_withExtra]
    cases p.validate r with
    | error e => exact .refused e
    | ok _ => exact .accepted p hp

/-! ## Order and nulls -/

/-- An explicit null at each of some keys. -/
def nulls (names : List String) : Mapping := names.map fun name => (.string name, .null)

theorem mem_nulls {e : Value × Value} : e ∈ nulls names ↔ ∃ name ∈ names, e = (.string name, .null) := by
  simp [nulls, eq_comm]

theorem keyed_append_nulls (hm : m.Keyed) (hnew : ∀ name ∈ names, m.get? name = none) (hnodup : names.Nodup) :
    Mapping.Keyed (m ++ nulls names) := by
  refine Mapping.keyed_append.2 ⟨hm, ⟨?_, fun e he => ?_⟩, fun e he e' he' => ?_⟩
  · refine List.pairwise_map.2 (hnodup.imp fun hne => ?_)
    rw [← Bool.not_eq_true, Value.same_string_iff]
    exact fun heq => hne (Value.string.inj heq).symm
  · obtain ⟨name, -, rfl⟩ := mem_nulls.1 he
    rfl
  · obtain ⟨name, hname, rfl⟩ := mem_nulls.1 he'
    rw [Mapping.same_comm (hm.keys e he) rfl, ← Bool.not_eq_true, Value.same_string_iff]
    exact Mapping.get?_eq_none.1 (hnew name hname) e he

theorem given?_append_nulls (m : Mapping) (names : List String) (name : String) :
    Mapping.given? (m ++ nulls names) name = m.given? name := by
  rw [Mapping.given?, Mapping.given?, Mapping.get?, Mapping.lookup?_append, ← Mapping.get?, ← Mapping.get?]
  cases hm : m.get? name with
  | some v => rfl
  | none =>
    rw [Option.none_or]
    cases hnull : Mapping.get? (nulls names) name with
    | none => rfl
    | some v =>
      obtain ⟨e, he, rfl⟩ := Option.map_eq_some_iff.1 hnull
      obtain ⟨name, -, rfl⟩ := mem_nulls.1 (List.mem_of_find?_eq_some he)
      rfl

theorem given?_perm (hm : m.Keyed) (hp : List.Perm m m') (name : String) : m.given? name = m'.given? name := by
  rw [Mapping.given?, Mapping.given?, Mapping.get?, Mapping.get?, Mapping.lookup?_perm hm rfl hp]

/-- **A payload is read as a set of fields that are not null.**  Of two mappings that have the same entries in any
order, but for explicit nulls at keys of the kind's fields that one has and the other leaves out, the same payload is
read, or they are refused with the same error. -/
theorem read_unordered (hraw : raw.asMapping? = some m) (hraw' : raw'.asMapping? = some m') (hm : m.Keyed)
    (hnew : ∀ name ∈ names, m.get? name = none)
    (hdeclared : ∀ k, readKind m = .ok k → ∀ name ∈ names, name ∈ k.declaredKeys) (hnodup : names.Nodup)
    (hp : List.Perm (m ++ nulls names) m') : SameAnswer (Payload.read r raw) (Payload.read r raw') := by
  have hkeyed := keyed_append_nulls hm hnew hnodup
  refine SameAnswer.read (sameAnswer_readFields ?_ (fun k hk name => ?_) fun k hk => ?_) hraw hraw'
  · exact readKind_congr ((given?_append_nulls m names _).symm.trans (given?_perm hkeyed hp _))
  · have hall : (nulls names).filter (fun e => isDeclared k e.1) = nulls names := by
      refine List.filter_eq_self.2 fun e he => ?_
      obtain ⟨name, hname, rfl⟩ := mem_nulls.1 he
      simpa [isDeclared, Value.asString?, Value.untagged] using hdeclared k hk name hname
    rw [← given?_append_nulls _ names, ← given?_perm (hkeyed.sublist List.filter_sublist) (hp.filter _),
      List.filter_append, hall]
  · have hnone : (nulls names).filter (fun e => !isDeclared k e.1) = [] := by
      refine List.filter_eq_nil_iff.2 fun e he => ?_
      obtain ⟨name, hname, rfl⟩ := mem_nulls.1 he
      simpa [isDeclared, Value.asString?, Value.untagged] using hdeclared k hk name hname
    have hfilter := hp.filter fun e => !isDeclared k e.1
    rwa [List.filter_append, hnone, List.append_nil] at hfilter

def hatchEntries : Mapping :=
  [(.string "type", .string "branch"), (.string "color", .string "red"), (.string "description", .string "hatch"),
    (.string "size", .number (.int 2))]

def hatchReversed : Mapping :=
  [(.string "instances", .null), (.string "comment", .null), (.string "size", .number (.int 2)),
    (.string "description", .string "hatch"), (.string "color", .string "red"), (.string "type", .string "branch")]

theorem read_hatch : hatchEntries.Keyed ∧ (∀ k, readKind hatchEntries = .ok k → ∀ name ∈ ["comment", "instances"],
    name ∈ k.declaredKeys) ∧
    List.Perm (hatchEntries ++ nulls ["comment", "instances"]) hatchReversed ∧
    SameAnswer (Payload.read {} (.mapping hatchEntries)) (Payload.read {} (.mapping hatchReversed)) := by
  have hkeyed : hatchEntries.Keyed :=
    ⟨by simp [hatchEntries, Mapping.Distinct, Value.same], by simp [hatchEntries, Value.repeatsKey]⟩
  have hkind : readKind hatchEntries = .ok .branch := rfl
  have hdeclared : ∀ k, readKind hatchEntries = .ok k → ∀ name ∈ ["comment", "instances"], name ∈ k.declaredKeys := by
    intro k hk
    rw [hkind] at hk
    cases hk
    decide
  have hnew : ∀ name ∈ ["comment", "instances"], hatchEntries.get? name = none :=
    List.forall_mem_cons.2 ⟨rfl, List.forall_mem_singleton.2 rfl⟩
  have hperm : List.Perm (hatchEntries ++ nulls ["comment", "instances"]) hatchReversed := (List.reverse_perm _).symm
  exact ⟨hkeyed, hdeclared, hperm, read_unordered rfl rfl hkeyed hnew hdeclared (by decide) hperm⟩

end Payload
end SignalCatalog
