import SignalCatalog.Payload.Read
import SignalCatalog.Payload.Write
import SignalCatalog.Proofs.Instance.Declaration
import SignalCatalog.Proofs.Steps
import SignalCatalog.Proofs.Value.Mapping
/-!
# Payloads by their keys

A payload has one field for each key of its kind.  A field is read from the value at its key, and written there unless
it is what an absent key is read as.
-/
namespace SignalCatalog

/-- **A mapping gives a key** when the value there is not null. -/
def Mapping.Gives (m : Mapping) (name : String) : Prop := ∃ v, m.get? name = some v ∧ v ≠ .null

theorem Kind.name_inj {k k' : Kind} (h : k.name = k'.name) : k = k' :=
  Option.some.inj (by rw [← Kind.ofName?_name, h, Kind.ofName?_name])

theorem Kind.ofName?_eq_some_iff {s : String} {k : Kind} : Kind.ofName? s = some k ↔ k.name = s := by
  constructor
  · exact fun h => by simpa using List.find?_some h
  · rintro rfl
    exact Kind.ofName?_name k

namespace Payload

/-- The keys that kinds declare. -/
inductive Key where
  | type
  | description
  | comment
  | delete
  | deprecation
  | constUid
  | fka
  | instantiate
  | datatype
  | arraysize
  | min
  | max
  | unit
  | allowed
  | default
  | instances
  deriving DecidableEq, Repr

/-- **A field**, whatever its type. -/
inductive Field where
  | text (value : Option String)
  | flag (value : Bool)
  | names (value : List String)
  | count (value : Option Nat)
  | number (value : Option Number)
  | values (value : Option (List Value))
  | value (value : Option Value)
  | levels (value : List Level)
  deriving Repr

namespace Key

def name : Key → String
  | type => "type"
  | description => "description"
  | comment => "comment"
  | delete => "delete"
  | deprecation => "deprecation"
  | constUid => "constUID"
  | fka => "fka"
  | instantiate => "instantiate"
  | datatype => "datatype"
  | arraysize => "arraysize"
  | min => "min"
  | max => "max"
  | unit => "unit"
  | allowed => "allowed"
  | default => "default"
  | instances => "instances"

def IsOf (key : Key) (k : Kind) : Prop := key.name ∈ k.declaredKeys

instance (key : Key) (k : Kind) : Decidable (key.IsOf k) := inferInstanceAs (Decidable (_ ∈ _))

/-- **The field of a key that is absent.** -/
def absent : Key → Field
  | delete => .flag false
  | instantiate => .flag true
  | fka => .names []
  | arraysize => .count none
  | min | max => .number none
  | allowed => .values none
  | default => .value none
  | instances => .levels []
  | _ => .text none

/-- **The field of a key**, read from a mapping. -/
def read (m : Mapping) : Key → Except PayloadError Field
  | type => (fun k => .text (some k.name)) <$> readKind m
  | description => (fun s => .text (some s)) <$> required Value.readString m "description"
  | comment => .text <$> field Value.readString m "comment"
  | delete => (fun b => .flag (b.getD false)) <$> field Value.readBool m "delete"
  | deprecation => .text <$> field Value.readString m "deprecation"
  | constUid => .text <$> field Value.readString m "constUID"
  | fka => (fun l => .names (l.getD [])) <$> field Value.readStrings m "fka"
  | instantiate => (fun b => .flag (b.getD true)) <$> field Value.readBool m "instantiate"
  | datatype => (fun s => .text (some s)) <$> required Value.readString m "datatype"
  | arraysize => .count <$> field Value.readCount m "arraysize"
  | min => .number <$> field Value.readNumber m "min"
  | max => .number <$> field Value.readNumber m "max"
  | unit => .text <$> field Value.readString m "unit"
  | allowed => .values <$> field Value.readValues m "allowed"
  | default => .value <$> field Value.readValue m "default"
  | instances => .levels <$> readInstances m

/-- The value that a field is written as, if it is written. -/
def written : Key → Field → Option Value
  | delete, .flag b => if b then some (.bool true) else none
  | _, .flag b => if b then none else some (.bool false)
  | _, .text s => s.map .string
  | _, .names l => if l.isEmpty then none else some (strings l)
  | _, .count n => n.map fun n : Nat => .number (.int n)
  | _, .number n => n.map .number
  | _, .values l => l.map .list
  | _, .value v => v
  | _, .levels l => if l.isEmpty then none else some (Level.declaration l)

end Key

/-- **The field of a payload at a key**, which is as if absent where the kind does not declare the key. -/
def get (p : Payload) : Key → Field
  | .type => .text (some p.kind.name)
  | .description => .text (some p.common.description)
  | .comment => .text p.common.comment
  | .delete => .flag p.common.delete
  | .deprecation => .text p.common.deprecation
  | .constUid => .text p.common.constUid
  | .fka => .names p.common.fka
  | .instantiate => .flag p.common.instantiate
  | .datatype => .text p.datatype?
  | .arraysize => .count (p.datatypeFields?.bind (·.arraysize))
  | .min => .number (p.datatypeFields?.bind (·.min))
  | .max => .number (p.datatypeFields?.bind (·.max))
  | .unit => .text (p.datatypeFields?.bind (·.unit))
  | .allowed => .values (p.datatypeFields?.bind (·.allowed))
  | .default => .value (p.datatypeFields?.bind (·.default))
  | .instances => .levels p.instances

/-- **A field written and read again.**  Tags are read from their names, and levels as they were declared. -/
def Field.rewritten : Field → Field
  | .values l => .values (l.map (List.map Value.reread))
  | .value v => .value (v.map Value.reread)
  | .levels l => .levels (Level.redeclared l)
  | f => f

variable {r : Registry} {m m' declared extra : Mapping} {p : Payload} {k : Kind} {key : Key} {f : Field}

theorem isDeclared_name : isDeclared k (.string key.name) = true ↔ key.IsOf k := by
  simp [isDeclared, Value.asString?, Value.untagged, Key.IsOf]

theorem Key.name_mem (key : Key) : key.name ∈ Kind.commonKeys ∨ key.name ∈ Kind.datatypeKeys ∨
    key.name ∈ Kind.branchKeys := by
  cases key <;> decide

theorem Key.isOf_iff : key.IsOf k ↔ key.name ∈ Kind.commonKeys ∨ key.name ∈ k.ownKeys := List.mem_append

theorem Key.isOf_type (k : Kind) : Key.IsOf .type k := Key.isOf_iff.2 (.inl (by decide))

theorem Key.rewritten_absent (key : Key) : key.absent.rewritten = key.absent := by cases key <;> rfl

theorem Key.eq_instances (h : key.name ∈ Kind.branchKeys) : key = .instances := by
  cases key <;> first | rfl | exact absurd h (by decide)

theorem ownKeys_of_hasDatatype (h : k.hasDatatype = true) : k.ownKeys = Kind.datatypeKeys := by
  cases k <;> first | rfl | cases h

theorem datatypeFields?_eq_none (h : p.kind.hasDatatype = false) : p.datatypeFields? = none := by
  obtain ⟨common, body⟩ := p
  cases body <;> first | rfl | cases h

theorem instances_eq_nil (h : p.kind ≠ .branch) : p.instances = [] := by
  obtain ⟨common, body⟩ := p
  cases body <;> first | rfl | exact absurd rfl h

theorem get_of_not_isOf (h : ¬ key.IsOf p.kind) : p.get key = key.absent := by
  rw [Key.isOf_iff, not_or] at h
  rcases key.name_mem with hkey | hkey | hkey
  · exact absurd hkey h.1
  · have hnone : p.datatypeFields? = none := by
      refine datatypeFields?_eq_none (Bool.eq_false_iff.2 fun hk => h.2 ?_)
      rwa [ownKeys_of_hasDatatype hk]
    cases key <;> first | exact absurd hkey (by decide) | simp [get, Key.absent, datatype?, hnone]
  · cases Key.eq_instances hkey
    rw [get, instances_eq_nil fun hk => h.2 (hk ▸ hkey)]
    rfl

/-! ## Reading -/

theorem Key.read_congr (h : m.get? key.name = m'.get? key.name) : key.read m = key.read m' := by
  cases key <;> simp only [Key.name] at h <;> simp only [Key.read, readKind, required, field, readInstances, h]

theorem get_of_readCommon {c : CommonFields} (h : readCommon declared extra = .ok c) : c.extra = extra ∧
    ∀ body key, key.name ∈ Kind.commonKeys → key ≠ .type → Key.read declared key = .ok (Payload.get ⟨c, body⟩ key) := by
  rw [readCommon] at h
  obtain ⟨description, hdescription, h⟩ := exists_of_bind_eq_ok h
  obtain ⟨comment, hcomment, h⟩ := exists_of_bind_eq_ok h
  obtain ⟨delete, hdelete, h⟩ := exists_of_bind_eq_ok h
  obtain ⟨deprecation, hdeprecation, h⟩ := exists_of_bind_eq_ok h
  obtain ⟨constUid, hconstUid, h⟩ := exists_of_bind_eq_ok h
  obtain ⟨fka, hfka, h⟩ := exists_of_bind_eq_ok h
  obtain ⟨instantiate, hinstantiate, h⟩ := exists_of_bind_eq_ok h
  cases h
  refine ⟨rfl, fun body key hkey htype => ?_⟩
  cases key <;> first | exact absurd hkey (by decide) | simp_all [Key.read, get]

theorem get_of_readDatatypeFields {f : DatatypeFields} (h : readDatatypeFields declared = .ok f)
    (hp : p.datatypeFields? = some f) (hkey : key.name ∈ Kind.datatypeKeys) : key.read declared = .ok (p.get key) := by
  rw [readDatatypeFields] at h
  obtain ⟨datatype, hdatatype, h⟩ := exists_of_bind_eq_ok h
  obtain ⟨arraysize, harraysize, h⟩ := exists_of_bind_eq_ok h
  obtain ⟨min, hmin, h⟩ := exists_of_bind_eq_ok h
  obtain ⟨max, hmax, h⟩ := exists_of_bind_eq_ok h
  obtain ⟨unit, hunit, h⟩ := exists_of_bind_eq_ok h
  obtain ⟨allowed, hallowed, h⟩ := exists_of_bind_eq_ok h
  obtain ⟨default, hdefault, h⟩ := exists_of_bind_eq_ok h
  cases h
  cases key <;> first | exact absurd hkey (by decide) | simp_all [Key.read, get, datatype?]

theorem get_of_readBody {c : CommonFields} {body : Body} (h : readBody declared k = .ok body) :
    Payload.kind ⟨c, body⟩ = k ∧
    ∀ key : Key, key.name ∈ k.ownKeys → key.read declared = .ok (Payload.get ⟨c, body⟩ key) := by
  cases k with
  | branch =>
    obtain ⟨levels, hlevels, rfl⟩ := exists_of_map_eq_ok h
    refine ⟨rfl, fun key hkey => ?_⟩
    cases Key.eq_instances hkey
    rw [Key.read, hlevels]
    rfl
  | struct =>
    cases h
    exact ⟨rfl, fun key hkey => absurd hkey List.not_mem_nil⟩
  | attr | sensor | actuator | property =>
    obtain ⟨f, hf, rfl⟩ := exists_of_map_eq_ok h
    exact ⟨rfl, fun key hkey => get_of_readDatatypeFields hf rfl hkey⟩

/-- **Every field of a payload is read at its key**, and all else is kept. -/
theorem get_of_readFields (h : readFields m = .ok p) : p.common.extra = m.filter (fun e => !isDeclared p.kind e.1) ∧
    ∀ key : Key, key.IsOf p.kind → key.read m = .ok (p.get key) := by
  rw [readFields] at h
  obtain ⟨k, hk, h⟩ := exists_of_bind_eq_ok h
  obtain ⟨c, hc, h⟩ := exists_of_bind_eq_ok h
  obtain ⟨body, hbody, h⟩ := exists_of_bind_eq_ok h
  cases h
  obtain ⟨hextra, hcommon⟩ := get_of_readCommon hc
  obtain ⟨hkind, hown⟩ := get_of_readBody (c := c) hbody
  rw [hkind]
  refine ⟨hextra, fun key hkey => ?_⟩
  have hdeclared : Key.read m key = Key.read (m.filter fun e => isDeclared k e.1) key := by
    refine Key.read_congr (Mapping.lookup?_filter fun e _ hsame => ?_).symm
    rw [(Value.same_string_iff _ _).1 hsame]
    exact isDeclared_name.2 hkey
  by_cases htype : key = .type
  · rw [htype, Key.read, hk, get, hkind]
    rfl
  · rw [hdeclared]
    rcases Key.isOf_iff.1 hkey with hkey | hkey
    · exact hcommon body key hkey htype
    · exact hown key hkey

theorem readCommon_of_get {c : CommonFields} {body : Body} (hextra : c.extra = extra)
    (h : ∀ key : Key, key.name ∈ Kind.commonKeys → key.read declared = .ok (Payload.get ⟨c, body⟩ key)) :
    readCommon declared extra = .ok c := by
  obtain ⟨description, hdescription, heq⟩ := exists_of_map_eq_ok (h .description (by decide))
  obtain ⟨comment, hcomment, heq'⟩ := exists_of_map_eq_ok (h .comment (by decide))
  obtain ⟨delete, hdelete, heq₂⟩ := exists_of_map_eq_ok (h .delete (by decide))
  obtain ⟨deprecation, hdeprecation, heq₃⟩ := exists_of_map_eq_ok (h .deprecation (by decide))
  obtain ⟨constUid, hconstUid, heq₄⟩ := exists_of_map_eq_ok (h .constUid (by decide))
  obtain ⟨fka, hfka, heq₅⟩ := exists_of_map_eq_ok (h .fka (by decide))
  obtain ⟨instantiate, hinstantiate, heq₆⟩ := exists_of_map_eq_ok (h .instantiate (by decide))
  obtain ⟨_, _, _, _, _, _, _, _⟩ := c
  cases hextra
  cases heq
  cases heq'
  cases heq₂
  cases heq₃
  cases heq₄
  cases heq₅
  cases heq₆
  rw [readCommon, hdescription, hcomment, hdelete, hdeprecation, hconstUid, hfka, hinstantiate]
  rfl

theorem readDatatypeFields_of_get {fields : DatatypeFields} (hp : p.datatypeFields? = some fields)
    (h : ∀ key : Key, key.name ∈ Kind.datatypeKeys → key.read declared = .ok (p.get key)) :
    readDatatypeFields declared = .ok fields := by
  obtain ⟨datatype, hdatatype, heq⟩ := exists_of_map_eq_ok (h .datatype (by decide))
  obtain ⟨arraysize, harraysize, heq'⟩ := exists_of_map_eq_ok (h .arraysize (by decide))
  obtain ⟨min, hmin, heq₂⟩ := exists_of_map_eq_ok (h .min (by decide))
  obtain ⟨max, hmax, heq₃⟩ := exists_of_map_eq_ok (h .max (by decide))
  obtain ⟨unit, hunit, heq₄⟩ := exists_of_map_eq_ok (h .unit (by decide))
  obtain ⟨allowed, hallowed, heq₅⟩ := exists_of_map_eq_ok (h .allowed (by decide))
  obtain ⟨default, hdefault, heq₆⟩ := exists_of_map_eq_ok (h .default (by decide))
  simp only [get, datatype?, hp] at heq heq' heq₂ heq₃ heq₄ heq₅ heq₆
  cases heq
  cases heq'
  cases heq₂
  cases heq₃
  cases heq₄
  cases heq₅
  cases heq₆
  rw [readDatatypeFields, hdatatype, harraysize, hmin, hmax, hunit, hallowed, hdefault]
  rfl

theorem readBody_of_get (h : ∀ key : Key, key.name ∈ p.kind.ownKeys → key.read declared = .ok (p.get key)) :
    readBody declared p.kind = .ok p.body := by
  obtain ⟨common, body⟩ := p
  cases body with
  | branch levels =>
    obtain ⟨levels', hlevels, heq⟩ := exists_of_map_eq_ok (h .instances List.mem_cons_self)
    cases heq
    change Body.branch <$> readInstances declared = _
    rw [hlevels]
    rfl
  | struct => rfl
  | attr fields | sensor fields | actuator fields | property fields =>
    change _ <$> readDatatypeFields declared = _
    rw [readDatatypeFields_of_get rfl h]
    rfl

/-- **A payload is read where its fields are.** -/
theorem readFields_of_get (hextra : p.common.extra = m.filter fun e => !isDeclared p.kind e.1)
    (h : ∀ key : Key, key.IsOf p.kind → key.read m = .ok (p.get key)) : readFields m = .ok p := by
  have hdeclared : ∀ key : Key, key.IsOf p.kind →
      key.read (m.filter fun e => isDeclared p.kind e.1) = .ok (p.get key) := by
    intro key hkey
    rw [← h key hkey]
    refine Key.read_congr (Mapping.lookup?_filter fun e _ hsame => ?_)
    rw [(Value.same_string_iff _ _).1 hsame]
    exact isDeclared_name.2 hkey
  obtain ⟨k, hk, heq⟩ := exists_of_map_eq_ok (h .type (Key.isOf_type _))
  have hkind : k = p.kind := Kind.name_inj (Option.some.inj (Field.text.inj heq))
  have hcommon : readCommon (m.filter fun e => isDeclared p.kind e.1) _ = .ok p.common :=
    readCommon_of_get hextra fun key hkey => hdeclared key (Key.isOf_iff.2 (.inl hkey))
  have hbody := readBody_of_get fun key hkey => hdeclared key (Key.isOf_iff.2 (.inr hkey))
  rw [readFields, hk, hkind]
  change (readCommon _ _ >>= fun common => readBody _ _ >>= fun body => _) = _
  rw [hcommon]
  change (readBody _ _ >>= fun body => _) = _
  rw [hbody]
  rfl

theorem readFields_of_read (h : read r (.mapping m) = .ok p) : readFields m = .ok p := by
  obtain ⟨p', hp', h⟩ := exists_of_bind_eq_ok h
  obtain ⟨-, -, h⟩ := exists_of_bind_eq_ok h
  cases h
  exact hp'

theorem read_of_readFields (h : readFields m = .ok p) (hvalid : p.validate r = .ok ()) :
    read r (.mapping m) = .ok p := by
  change (readFields m >>= fun p => p.validate r >>= fun _ => .ok p) = _
  rw [h]
  change (p.validate r >>= fun _ => .ok p) = _
  rw [hvalid]
  rfl

theorem field_of_not_gives {α : Type} {read : Value → Except Mismatch α} {name : String} (h : ¬ m.Gives name) :
    field read m name = .ok none := by
  rw [field]
  cases hm : m.get? name with
  | none => rfl
  | some v => cases v <;> first | rfl | exact absurd ⟨_, hm, by simp⟩ h

theorem Key.read_of_not_gives (h : ¬ m.Gives key.name) (hf : key.read m = .ok f) : f = key.absent := by
  cases key with
  | type | description | datatype =>
    simp only [Key.name] at h
    simp only [Key.read, readKind, required, field_of_not_gives h] at hf
    cases hf
  | instances =>
    simp only [Key.name] at h
    rw [Key.read, readInstances] at hf
    cases hm : m.get? "instances" with
    | none =>
      rw [hm] at hf
      cases hf
      rfl
    | some v =>
      have hv : v = .null := by
        by_contra hv
        exact h ⟨v, hm, hv⟩
      rw [hm, hv] at hf
      cases hf
      rfl
  | _ =>
    simp only [Key.name] at h
    simp only [Key.read, field_of_not_gives h] at hf
    cases hf
    rfl

theorem reread_ne_null {v : Value} (h : v ≠ .null) : v.reread ≠ .null := by
  cases v <;> simp_all [Value.reread]

theorem reread_of_readValue {v w : Value} (h : v.readValue = .ok w) : w = v.reread := by
  rw [Value.readValue] at h
  split at h
  · cases h
  · cases h
    rfl

end Payload
end SignalCatalog
