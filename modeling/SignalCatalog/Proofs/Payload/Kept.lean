import SignalCatalog.Proofs.Payload.Again
import SignalCatalog.Proofs.Value.Tags
import SignalCatalog.Proofs.Value.Typed
/-!
# What the raw form keeps

An attribute that a payload is read from is there in its raw form, with the same value.  What is lost are tagged keys
that name a field: they are taken for fields, and no field is read from them.  What is changed are tags within allowed
values and defaults.
-/
namespace SignalCatalog
namespace Payload

variable {r : Registry} {m : Mapping} {p : Payload} {key : Key} {f : Field} {raw v : Value} {e : Value × Value}

/-! ## Values of fields -/

namespace Key

/-- **A value without the tags that the type of its field looks through.** -/
def bare : Key → Value → Value
  | fka, v =>
    match v.untagged with
    | .list items => .list (items.map Value.untagged)
    | w => w
  | default, v => v
  | _, v => v.untagged

/-- **The value that the raw form has for a value**: that of a field without tags, and any value read again. -/
def shown : Key → Value → Value
  | allowed, v =>
    match v.untagged with
    | .list items => .list (items.map Value.reread)
    | _ => .list []
  | default, v => v.reread
  | key, v => key.bare v

/-- **Values that are not written as they are**: those that are as if absent, and declared instances. -/
def Silent : Key → Value → Prop
  | delete, v => v.untagged = .bool false
  | instantiate, v => v.untagged = .bool true
  | fka, v => v.untagged = .list [] ∨ v.untagged = .null
  | instances, _ => True
  | _, _ => False

/-- **Values that come back**: in allowed values and defaults, those without marked tags. -/
def Lasting : Key → Value → Prop
  | allowed, v => ∃ items, v.untagged = .list items ∧ ∀ item ∈ items, item.Unmarked
  | default, v => v.Unmarked
  | _, _ => True

theorem shown_eq_bare_iff : key.shown v = key.bare v ↔ key.Lasting v := by
  cases key with
  | allowed =>
    simp only [shown, bare, Lasting]
    split
    · rename_i items hitems
      simp [hitems, Value.map_eq_self_iff, Value.reread_eq_self]
    · rename_i hother
      refine iff_of_false (fun heq => hother [] heq.symm) ?_
      rintro ⟨items, hitems, -⟩
      exact hother items hitems
  | default => exact Value.reread_eq_self
  | _ => exact iff_of_true rfl trivial

theorem map_of_field {α : Type} {read : Value → Except Mismatch α} {write : α → Value} {name : String}
    {x : Option α} {w : Value} (hm : m.get? name = some v) (hv : v ≠ .null) (hx : field read m name = .ok x)
    (hread : ∀ a, read v = .ok a → write a = w) :
    x.map write = some w := by
  obtain ⟨a, ha, rfl⟩ := field_eq_ok hm hv hx
  exact congrArg some (hread a ha)

theorem text_of_field {name : String} {x : Option String} (hm : m.get? name = some v) (hv : v ≠ .null)
    (hx : field Value.readString m name = .ok x) : x.map .string = some v.untagged :=
  map_of_field hm hv hx fun _ hs => (Value.readString_eq_ok_iff.1 hs).symm

theorem written_of_read (hf : key.read m = .ok f) (hm : m.get? key.name = some v) (hv : v ≠ .null)
    (hloud : ¬key.Silent v) :
    key.written f = some (key.shown v) := by
  cases key with
  | type =>
    obtain ⟨k, hk, rfl⟩ := exists_of_map_eq_ok hf
    obtain ⟨name, hname, hk⟩ := kind_of_readKind hk
    cases Kind.ofName?_eq_some_iff.1 hk
    exact text_of_field hm hv (field_of_required hname)
  | description | datatype =>
    obtain ⟨s, hs, rfl⟩ := exists_of_map_eq_ok hf
    exact text_of_field hm hv (field_of_required hs)
  | comment | deprecation | constUid | unit =>
    obtain ⟨x, hx, rfl⟩ := exists_of_map_eq_ok hf
    exact text_of_field hm hv hx
  | delete =>
    obtain ⟨x, hx, rfl⟩ := exists_of_map_eq_ok hf
    obtain ⟨b, hb, rfl⟩ := field_eq_ok hm hv hx
    have hb := Value.readBool_eq_ok_iff.1 hb
    cases b with
    -- a flag is written where it differs from its default
    | false => exact absurd hb hloud
    | true => exact congrArg some hb.symm
  | instantiate =>
    obtain ⟨x, hx, rfl⟩ := exists_of_map_eq_ok hf
    obtain ⟨b, hb, rfl⟩ := field_eq_ok hm hv hx
    have hb := Value.readBool_eq_ok_iff.1 hb
    cases b with
    | false => exact congrArg some hb.symm
    | true => exact absurd hb hloud
  | fka =>
    obtain ⟨x, hx, rfl⟩ := exists_of_map_eq_ok hf
    obtain ⟨l, hl, rfl⟩ := field_eq_ok hm hv hx
    obtain ⟨items, hitems, hl⟩ := exists_of_bind_eq_ok hl
    rcases Value.readList_eq_ok_iff.1 hitems with hlist | ⟨hnull, -⟩
    · have hstrings := Value.mapM_readString_eq_ok_iff.1 hl
      have hne : l ≠ [] := by
        rintro rfl
        exact hloud (.inl (by rw [hlist, List.map_eq_nil_iff.1 hstrings]))
      simp [written, shown, bare, strings, hlist, hstrings, hne]
    · exact absurd (.inr hnull) hloud
  | arraysize =>
    obtain ⟨x, hx, rfl⟩ := exists_of_map_eq_ok hf
    exact map_of_field hm hv hx fun _ hn => (Value.readCount_eq_ok_iff.1 hn).symm
  | min | max =>
    obtain ⟨x, hx, rfl⟩ := exists_of_map_eq_ok hf
    refine map_of_field hm hv hx fun _ hn => ?_
    rw [Value.readNumber_eq_ok_iff.1 hn]
    rfl
  | allowed =>
    obtain ⟨x, hx, rfl⟩ := exists_of_map_eq_ok hf
    refine map_of_field hm hv hx fun l hl => ?_
    obtain ⟨items, hitems, hl⟩ := exists_of_bind_eq_ok hl
    rw [mapM_readValue hl]
    rcases Value.readList_eq_ok_iff.1 hitems with hlist | ⟨hnull, rfl⟩
    · simp [shown, hlist]
    · simp [shown, hnull]
  | default =>
    obtain ⟨x, hx, rfl⟩ := exists_of_map_eq_ok hf
    obtain ⟨w, hw, rfl⟩ := field_eq_ok hm hv hx
    exact congrArg some (reread_of_readValue hw)
  | instances => exact absurd trivial hloud

end Key

/-! ## Entries -/

/-- **A payload keeps an entry** when its raw form has the key with the value, that of a field without the tags that its
type looks through. -/
def Keeps (p : Payload) (e : Value × Value) : Prop :=
  (∀ key : Key, key.IsOf p.kind → e.1 = .string key.name → p.raw.lookup? e.1 = some (key.bare e.2)) ∧
    ((∀ key : Key, key.IsOf p.kind → e.1 ≠ .string key.name) → p.raw.lookup? e.1 = some e.2)

/-- **An entry that a payload may leave out**: it is null, or a field that is as if absent, or declares instances. -/
def MayOmit (p : Payload) (e : Value × Value) : Prop :=
  e.2 = .null ∨ ∃ key : Key, key.IsOf p.kind ∧ e.1 = .string key.name ∧ key.Silent e.2

/-- **A key that is taken for a field and read for none**: the name of one, tagged. -/
def Masked (k : Kind) (v : Value) : Prop := isDeclared k v = true ∧ ∀ s, v ≠ .string s

theorem exists_declaredKeys_eq (k : Kind) : ∃ keys : List Key, k.declaredKeys = keys.map Key.name := by
  have hcommon : Kind.commonKeys = [Key.type, .description, .comment, .delete, .deprecation, .constUid, .fka,
    .instantiate].map Key.name := rfl
  have hdatatype : Kind.datatypeKeys = [Key.datatype, .arraysize, .min, .max, .unit, .allowed, .default].map Key.name :=
    rfl
  have hbranch : Kind.branchKeys = [Key.instances].map Key.name := rfl
  rw [Kind.declaredKeys, hcommon]
  cases k with
  | branch => exact ⟨_, (congrArg _ hbranch).trans List.map_append.symm⟩
  | struct => exact ⟨_, List.append_nil _⟩
  | attr | sensor | actuator | property => exact ⟨_, (congrArg _ hdatatype).trans List.map_append.symm⟩

theorem key_cases (k : Kind) (v : Value) :
    (∃ key : Key, v = .string key.name ∧ key.IsOf k) ∨ Masked k v ∨ isDeclared k v = false := by
  cases hdeclared : isDeclared k v with
  | false => exact .inr (.inr rfl)
  | true =>
    by_cases hstring : ∃ s, v = .string s
    · obtain ⟨s, rfl⟩ := hstring
      have hmem : s ∈ k.declaredKeys := by simpa [isDeclared, Value.asString?, Value.untagged] using hdeclared
      obtain ⟨keys, hkeys⟩ := exists_declaredKeys_eq k
      obtain ⟨key, -, rfl⟩ := List.mem_map.1 (hkeys ▸ hmem)
      exact .inl ⟨key, rfl, hmem⟩
    · exact .inr (.inl ⟨hdeclared, fun s hs => hstring ⟨s, hs⟩⟩)

theorem ne_name_of_foreign {k : Kind} (h : isDeclared k v = false) :
    ∀ key : Key, key.IsOf k → v ≠ .string key.name := by
  rintro key hof rfl
  rw [isDeclared_name.2 hof] at h
  cases h

theorem read_of_asMapping? (hraw : raw.asMapping? = some m) : read r raw = read r (.mapping m) := by
  rw [read, hraw]
  rfl

section Entries

variable (hm : m.Keyed) (h : read r (.mapping m) = .ok p) (he : e ∈ m)
include hm h he

/-- **A field is in the raw form** with the value it was read from. -/
theorem lookup?_raw_of_field (hkey : e.1 = .string key.name) (hof : key.IsOf p.kind) (hnull : e.2 ≠ .null)
    (hloud : ¬key.Silent e.2) :
    p.raw.lookup? e.1 = some (key.shown e.2) := by
  have hget : m.get? key.name = some e.2 :=
    (Mapping.lookup?_eq_some hm rfl).2 ⟨e, he, by rw [hkey, Value.same_refl], rfl⟩
  have hread := (get_of_readFields (readFields_of_read h)).2 key hof
  rw [hkey, ← Mapping.get?, get?_raw (proper_of_read hm h), if_pos hof, Key.written_of_read hread hget hnull hloud]

theorem lookup?_raw_of_foreign (hforeign : isDeclared p.kind e.1 = false) : p.raw.lookup? e.1 = some e.2 := by
  rw [lookup?_raw (proper_of_read hm h) (hm.keys e he) (ne_name_of_foreign hforeign),
    (get_of_readFields (readFields_of_read h)).1,
    Mapping.lookup?_filter fun e' _ hsame => by rw [isDeclared_of_same _ _ hsame, hforeign]; rfl]
  exact (Mapping.lookup?_eq_some hm (hm.keys e he)).2 ⟨e, he, Value.same_refl _, rfl⟩

theorem lookup?_raw_of_masked (hmasked : Masked p.kind e.1) : p.raw.lookup? e.1 = none := by
  rw [lookup?_raw (proper_of_read hm h) (hm.keys e he) fun key _ => hmasked.2 key.name,
    (get_of_readFields (readFields_of_read h)).1]
  exact Mapping.lookup?_filter_eq_none fun e' _ hsame => by rw [isDeclared_of_same _ _ hsame, hmasked.1]; rfl

end Entries

/-- **Nothing is read from a masked key**: without it the same payload is read. -/
theorem read_without_masked (h : read r (.mapping m) = .ok p) (hmasked : Masked p.kind v) :
    read r (.mapping (m.filter fun e => !v.same e.1)) = .ok p := by
  obtain ⟨hextra, hget⟩ := get_of_readFields (readFields_of_read h)
  refine read_of_readFields (readFields_of_get ?_ fun key hof => ?_) (validate_of_read h)
  · rw [hextra, List.filter_filter]
    refine List.filter_congr fun e _ => ?_
    cases hsame : v.same e.1 with
    | false => simp
    | true => simp [isDeclared_of_same _ _ hsame, hmasked.1]
  · rw [← hget key hof]
    refine Key.read_congr (Mapping.lookup?_filter fun e _ hname => ?_)
    rw [(Value.same_string_iff _ _).1 hname]
    cases v with
    | string s => exact absurd rfl (hmasked.2 s)
    | _ => rfl

/-- **A payload that was read keeps every entry**, but for those it may omit, just where no field has its name tagged
and allowed values and defaults have no marked tags.  A masked key is dropped and nothing is read from it; a field is
written with its values read again. -/
theorem keeps_iff (hm : m.Keyed) (hraw : raw.asMapping? = some m) (h : read r raw = .ok p) (he : e ∈ m)
    (homit : ¬p.MayOmit e) :
    (p.Keeps e ↔ ¬Masked p.kind e.1 ∧ ∀ key : Key, key.IsOf p.kind → e.1 = .string key.name → key.Lasting e.2) ∧
      (Masked p.kind e.1 → p.raw.lookup? e.1 = none ∧ read r (.mapping (m.filter fun x => !e.1.same x.1)) = .ok p) ∧
      ∀ key : Key, key.IsOf p.kind → e.1 = .string key.name → p.raw.lookup? e.1 = some (key.shown e.2) := by
  rw [read_of_asMapping? hraw] at h
  have hfield : ∀ key : Key, key.IsOf p.kind → e.1 = .string key.name →
      p.raw.lookup? e.1 = some (key.shown e.2) := fun key hof hkey =>
    lookup?_raw_of_field hm h he hkey hof (fun hnull => homit (.inl hnull)) fun hsilent =>
      homit (.inr ⟨key, hof, hkey, hsilent⟩)
  refine ⟨?_, fun hmasked => ⟨lookup?_raw_of_masked hm h he hmasked, read_without_masked h hmasked⟩, hfield⟩
  rcases key_cases p.kind e.1 with ⟨key, hkey, hof⟩ | hmasked | hforeign
  · constructor
    · refine fun hkeeps => ⟨fun hmasked => hmasked.2 key.name hkey, fun key' hof' hkey' => ?_⟩
      have hsame := (hfield key' hof' hkey').symm.trans (hkeeps.1 key' hof' hkey')
      exact Key.shown_eq_bare_iff.1 (Option.some.inj hsame)
    · rintro ⟨-, hlasting⟩
      refine ⟨fun key' hof' hkey' => ?_, fun hother => absurd hkey (hother key hof)⟩
      rw [hfield key' hof' hkey', Key.shown_eq_bare_iff.2 (hlasting key' hof' hkey')]
  · refine iff_of_false (fun hkeeps => ?_) fun hnot => hnot.1 hmasked
    have hsome := hkeeps.2 fun key _ => hmasked.2 key.name
    rw [lookup?_raw_of_masked hm h he hmasked] at hsome
    cases hsome
  · have hother := ne_name_of_foreign hforeign
    refine iff_of_true ⟨fun key hof hkey => absurd hkey (hother key hof),
      fun _ => lookup?_raw_of_foreign hm h he hforeign⟩ ⟨?_, ?_⟩
    · rintro ⟨hdeclared, -⟩
      rw [hforeign] at hdeclared
      cases hdeclared
    · exact fun key hof hkey => absurd hkey (hother key hof)

def remarkEntries (key : Value) : Mapping :=
  [(.string "type", .string "branch"), (.string "description", .string "door"), (key, .string "old")]

def remarkedDoor : Payload where
  common := { description := "door", comment := some "old" }
  body := .branch []

/-- The name of a field is kept. -/
theorem keeps_remark : read {} (.mapping (remarkEntries (.string "comment"))) = .ok remarkedDoor ∧
    remarkedDoor.Keeps (.string "comment", .string "old") := by
  have hread : read {} (.mapping (remarkEntries (.string "comment"))) = .ok remarkedDoor := by rfl
  have hkeyed : (remarkEntries (.string "comment")).Keyed :=
    ⟨by simp [remarkEntries, Mapping.Distinct, Value.same], by simp [remarkEntries, Value.repeatsKey]⟩
  have hcomment : ∀ key : Key, Value.string "comment" = .string key.name → key = .comment := by
    intro key hkey
    cases key <;> first | rfl | exact absurd (Value.string.inj hkey) (by decide)
  have homit : ¬remarkedDoor.MayOmit (.string "comment", .string "old") := by
    rintro (hnull | ⟨key, -, hkey, hsilent⟩)
    · cases hnull
    · cases hcomment key hkey
      exact hsilent
  refine ⟨hread, (keeps_iff hkeyed rfl hread (by simp [remarkEntries]) homit).1.2
    ⟨fun hmasked => hmasked.2 "comment" rfl, ?_⟩⟩
  intro key _ hkey
  cases hcomment key hkey
  trivial

/-- **The name of a field, tagged, is dropped** without a word. -/
theorem read_remark_masked :
    read {} (.mapping (remarkEntries (.tagged ⟨"x"⟩ (.string "comment")))) = .ok (branch "door") ∧
      ¬(branch "door").MayOmit (.tagged ⟨"x"⟩ (.string "comment"), .string "old") ∧
      ¬(branch "door").Keeps (.tagged ⟨"x"⟩ (.string "comment"), .string "old") := by
  refine ⟨rfl, ?_, fun hkeeps => ?_⟩
  · rintro (hnull | ⟨key, -, hkey, -⟩)
    · cases hnull
    · cases hkey
  · have hsome := hkeeps.2 fun key _ hkey => by cases hkey
    cases hsome

end Payload
end SignalCatalog
