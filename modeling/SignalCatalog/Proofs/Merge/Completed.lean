import SignalCatalog.Proofs.Merge.Kinds
import SignalCatalog.Proofs.Payload.Missing
import SignalCatalog.Proofs.Payload.Written
import SignalCatalog.Proofs.Value.Typed
/-!
# Completed overlays

Completion appends to an entry what the refined node has at the keys that every payload needs, where the entry leaves
them out.  An entry that writes such a key with a null does not leave it out, though it gives nothing there: just these
entries are still refused for a missing field.
-/
namespace SignalCatalog

theorem Mapping.has_eq_false_iff {m : Mapping} {name : String} : m.has name = false ↔ m.get? name = none :=
  contains_eq_false.trans lookup?_eq_none.symm

theorem Mapping.not_gives_iff {m m' : Mapping} {name : String} {v : Value}
    (h : m'.get? name = (m.get? name).or (some v)) (hv : v ≠ .null) :
    ¬m'.Gives name ↔ m.get? name = some .null := by
  rw [Gives, h]
  cases m.get? name with
  | none => simp [hv]
  | some w => simp

namespace Overlay

variable {base entry : Mapping} {name s : String}

def inherited (base entry : Mapping) (name : String) : Mapping :=
  if entry.get? name = none then Payload.optional name id (base.get? name) else []

theorem inherit_eq : inherit base entry name = entry ++ inherited base entry name := by
  rw [inherit, inherited]
  cases hhas : entry.has name with
  | false =>
    rw [if_pos (Mapping.has_eq_false_iff.1 hhas), if_neg (by simp)]
    cases base.get? name with
    | none => exact (List.append_nil entry).symm
    | some v => exact Mapping.insert_of_contains_eq_false hhas
  | true =>
    have hsome : entry.get? name ≠ none := fun hnone => by
      rw [Mapping.has_eq_false_iff.2 hnone] at hhas
      cases hhas
    rw [if_pos rfl, if_neg hsome, List.append_nil]

theorem get?_inherited : (inherited base entry name).get? s = if s = name ∧
    entry.get? name = none then base.get? name else none := by
  rw [inherited]
  split
  · rename_i hnone
    rw [Payload.get?_optional, Option.map_id]
    simp [hnone]
  · rename_i hsome
    rw [if_neg fun h => hsome h.2]
    rfl

theorem get?_inherit :
    (inherit base entry name).get? s = (entry.get? s).or (if s = name then base.get? name else none) := by
  rw [inherit_eq, Payload.get?_append, get?_inherited]
  by_cases hs : s = name
  · subst hs
    cases entry.get? s <;> simp
  · simp [hs]

theorem inherited_inherit (h : s ≠ name) : inherited base (inherit base entry s) name = inherited base entry name := by
  rw [inherited, inherited, get?_inherit, if_neg h.symm, Option.or_none]

theorem isTyped_inherit : isTyped (inherit base entry name) base = isTyped entry base := by
  have htype : ((inherit base entry name).get? "type").orElse (fun _ => base.get? "type") =
      (entry.get? "type").orElse fun _ => base.get? "type" := by
    rw [get?_inherit]
    by_cases hname : "type" = name
    · subst hname
      cases entry.get? "type" <;> cases base.get? "type" <;> rfl
    · rw [if_neg hname, Option.or_none]
  simp only [isTyped, htype]

/-- **The entries that completion adds.** -/
def added (base entry : Mapping) : Mapping :=
  inherited base entry "type" ++ inherited base entry "description" ++
    if isTyped entry base then inherited base entry "datatype" else []

theorem completeEntry_eq : completeEntry base entry = entry ++ added base entry := by
  rw [completeEntry, added, isTyped_inherit, isTyped_inherit]
  split
  · rw [inherit_eq, inherited_inherit (by decide), inherited_inherit (by decide), inherit_eq,
      inherited_inherit (by decide), inherit_eq]
    simp only [List.append_assoc]
  · rw [inherit_eq, inherited_inherit (by decide), inherit_eq]
    simp only [List.append_assoc, List.append_nil]

theorem at_inherited (key : Payload.Key) : Payload.At [key] (inherited base entry key.name) := by
  rw [inherited]
  split
  · exact Payload.at_optional key id _
  · exact List.nil_sublist _

theorem at_added : Payload.At [.type, .description, .datatype] (added base entry) := by
  refine ((at_inherited .type).append (at_inherited .description)).append ?_
  split
  · exact at_inherited .datatype
  · exact List.nil_sublist _

theorem of_mem_inherited {e : Value × Value} (he : e ∈ inherited base entry name) :
    e.1 = .string name ∧ entry.get? name = none ∧ base.get? name = some e.2 := by
  rw [inherited] at he
  split at he
  · rename_i hnone
    cases hbase : base.get? name with
    | none => simp [hbase, Payload.optional] at he
    | some v =>
      rw [hbase] at he
      cases List.mem_singleton.1 he
      exact ⟨rfl, hnone, rfl⟩
  · cases he

theorem of_mem_added {e : Value × Value} (he : e ∈ added base entry) :
    entry.lookup? e.1 = none ∧ base.lookup? e.1 = some e.2 := by
  have hname : ∃ name, e ∈ inherited base entry name := by
    rcases List.mem_append.1 he with he | he
    · exact (List.mem_append.1 he).elim (fun he => ⟨_, he⟩) fun he => ⟨_, he⟩
    · split at he
      · exact ⟨_, he⟩
      · cases he
  obtain ⟨name, he⟩ := hname
  obtain ⟨hkey, hnone, hbase⟩ := of_mem_inherited he
  rw [hkey]
  exact ⟨hnone, hbase⟩

theorem get?_completeEntry : (completeEntry base entry).get? s = (entry.get? s).or
    (if s = "type" ∨ s = "description" ∨ s = "datatype" ∧ isTyped entry base = true then base.get? s else none) := by
  rw [completeEntry_eq, Payload.get?_append, added, Payload.get?_append, Payload.get?_append,
    get?_inherited, get?_inherited]
  have hdatatype : (if isTyped entry base = true then inherited base entry "datatype" else []).get? s =
      if (s = "datatype" ∧ isTyped entry base = true) ∧ entry.get? "datatype" = none then base.get? "datatype"
      else none := by
    cases isTyped entry base
    · simp [Mapping.get?, Mapping.lookup?]
    · simp [get?_inherited]
  rw [hdatatype]
  by_cases htype : s = "type"
  · subst htype
    cases entry.get? "type" <;> simp
  · by_cases hdescription : s = "description"
    · subst hdescription
      cases entry.get? "description" <;> simp
    · by_cases hs : s = "datatype"
      · subst hs
        cases entry.get? "datatype" <;> simp
      · simp [htype, hdescription, hs]

end Overlay

namespace Payload

variable {p : Payload} {m m' : Mapping} {k : Kind} {v : Value}

theorem readKind_of_asString? (hm : m.get? "type" = some v) (hv : v.asString? = some k.name) : readKind m = .ok k := by
  have hread : v.readString = .ok k.name := by
    refine Value.readString_eq_ok_iff.2 ?_
    rw [Value.asString?] at hv
    cases hs : v.untagged <;> rw [hs] at hv <;> cases hv
    rfl
  have hnull : v ≠ .null := by
    rintro rfl
    cases hv
  have hfield : field Value.readString m "type" = .ok (some k.name) := by
    rw [field, hm]
    cases v <;> first | exact absurd rfl hnull | simp [hread]
  have hrequired : required Value.readString m "type" = .ok k.name := by
    rw [required, hfield]
    rfl
  simp [readKind, hrequired, bind, Except.bind, pure, Except.pure, Kind.ofName?_name]

/-- The type that an entry writes, if it writes one that is not null, is that of the payload. -/
def Suits (p : Payload) (m : Mapping) : Prop := ∀ v, m.get? "type" = some v → v = .null ∨ v.asString? = some p.kind.name

/-- **An entry that refines a payload, completed from it.** -/
structure Completed (p : Payload) (m m' : Mapping) : Prop where
  /-- Nothing is changed.  The type, the description and the datatype are added, where they were left out, as the
  payload has them. -/
  appended : ∃ added, m' = m ++ added ∧ At [.type, .description, .datatype] added ∧
    ∀ e ∈ added, m.lookup? e.1 = none ∧ p.raw.lookup? e.1 = some e.2
  /-- If the type suits, a field is missing just where the entry writes a null, and all that is read before it
  is there. -/
  missing : p.Suits m → ∀ r s, read r (.mapping m') = .error (.missingField s) ↔
    s = "type" ∧ m.get? "type" = some .null ∨
    s = "description" ∧ m.get? "type" ≠ some .null ∧ m.get? "description" = some .null ∨
    s = "datatype" ∧ p.kind.hasDatatype = true ∧ m.get? "datatype" = some .null ∧
      ∀ key : Key, key.name ∈ Kind.commonKeys → ∃ f, key.read m' = .ok f

theorem get?_raw_type (hp : p.Proper) : p.raw.get? "type" = some (.string p.kind.name) :=
  (get?_raw hp).trans (if_pos (Key.isOf_type _))

theorem get?_raw_description (hp : p.Proper) : p.raw.get? "description" = some (.string p.common.description) :=
  (get?_raw hp).trans (if_pos (show Key.IsOf .description p.kind from Key.isOf_iff.2 (.inl (by decide))))

theorem get?_raw_datatype (hp : p.Proper) (hkind : p.kind.hasDatatype = true) :
    ∃ s, p.raw.get? "datatype" = some (.string s) := by
  obtain ⟨fields, hfields⟩ : ∃ fields, p.datatypeFields? = some fields := by
    obtain ⟨common, body⟩ := p
    cases body <;> first | exact ⟨_, rfl⟩ | cases hkind
  have hof : Key.IsOf .datatype p.kind := Key.isOf_iff.2 (.inr (ownKeys_of_hasDatatype hkind ▸ by decide))
  refine ⟨fields.datatype, ((get?_raw hp).trans (if_pos hof)).trans ?_⟩
  simp [Key.written, get, datatype?, hfields]

theorem proper_branch (description : String) : Proper (.branch description) :=
  ⟨Mapping.keyed_nil, by simp [branch], by simp [get, branch, datatypeFields?]⟩

/-- A completed entry whose type suits is of the payload's kind, unless its type is null. -/
theorem Suits.completed (h : p.Suits m) (hp : p.Proper) (htype : m.get? "type" ≠ some .null) :
    readKind (Overlay.completeEntry p.raw m) = .ok p.kind ∧ Overlay.isTyped m p.raw = p.kind.hasDatatype := by
  obtain ⟨v, hv, hs⟩ : ∃ v, (m.get? "type").or (p.raw.get? "type") = some v ∧ v.asString? = some p.kind.name := by
    cases hm : m.get? "type" with
    | none =>
      rw [get?_raw_type hp]
      exact ⟨_, rfl, rfl⟩
    | some v => exact ⟨v, rfl, (h v hm).resolve_left fun hnull => htype (hnull ▸ hm)⟩
  constructor
  · refine readKind_of_asString? ?_ hs
    rw [Overlay.get?_completeEntry, if_pos (.inl rfl), hv]
  · simp [Overlay.isTyped, hv, hs, Kind.ofName?_name]

theorem completed_completeEntry (hp : p.Proper) (m : Mapping) : p.Completed m (Overlay.completeEntry p.raw m) where
  appended := ⟨_, Overlay.completeEntry_eq, Overlay.at_added, fun _ => Overlay.of_mem_added⟩
  missing := by
    intro hsuits r s
    have htype : ¬(Overlay.completeEntry p.raw m).Gives "type" ↔ m.get? "type" = some .null :=
      Mapping.not_gives_iff (by rw [Overlay.get?_completeEntry, if_pos (.inl rfl), get?_raw_type hp]) (by simp)
    have hdescription : ¬(Overlay.completeEntry p.raw m).Gives "description" ↔ m.get? "description" = some .null :=
      Mapping.not_gives_iff (by rw [Overlay.get?_completeEntry, if_pos (.inr (.inl rfl)), get?_raw_description hp])
        (by simp)
    rw [read_eq_missingField_iff, htype, hdescription]
    by_cases hnull : m.get? "type" = some .null
    · -- without a type nothing else is read
      have hkind : ∀ k, readKind (Overlay.completeEntry p.raw m) ≠ .ok k := by
        intro k hk
        rw [readKind_eq_missingField_iff.2 ⟨rfl, htype.2 hnull⟩] at hk
        cases hk
      refine or_congr_right (iff_of_false (fun ⟨k, hk, _⟩ => hkind k hk) ?_)
      rintro (⟨-, hne, -⟩ | ⟨-, -, -, hcommon⟩)
      · exact hne hnull
      · obtain ⟨f, hf⟩ := hcommon .type (by decide)
        obtain ⟨k, hk, -⟩ := exists_of_map_eq_ok hf
        exact hkind k hk
    · obtain ⟨hkind, htyped⟩ := hsuits.completed hp hnull
      have hdatatype : p.kind.hasDatatype = true →
          (¬(Overlay.completeEntry p.raw m).Gives "datatype" ↔ m.get? "datatype" = some .null) := by
        intro hhas
        obtain ⟨name, hname⟩ := get?_raw_datatype hp hhas
        refine Mapping.not_gives_iff ?_ (show Value.string name ≠ .null by simp)
        rw [Overlay.get?_completeEntry, if_pos (.inr (.inr ⟨rfl, htyped.trans hhas⟩)), hname]
      refine or_congr_right ?_
      rw [hkind]
      constructor
      · rintro ⟨k, hk, h⟩
        cases hk
        refine h.imp (fun h => ⟨h.1, hnull, h.2⟩) ?_
        rintro ⟨hhas, hs, hgives, hcommon⟩
        exact ⟨hs, hhas, (hdatatype hhas).1 hgives, hcommon⟩
      · refine fun h => ⟨_, rfl, h.imp (fun h => ⟨h.1, h.2.2⟩) ?_⟩
        rintro ⟨hs, hhas, hwritten, hcommon⟩
        exact ⟨hhas, hs, (hdatatype hhas).2 hwritten, hcommon⟩

end Payload

namespace Overlay

variable {b : Tree}

/-- **An entry of an overlay before and after its completion** from a base. -/
structure EntryCompleted (b : Tree) (e e' : Value × Value) : Prop where
  same_key : e'.1 = e.1
  /-- What is no mapping, or is at a key that names no node of the base, is left alone. -/
  untouched : (∀ fqn m x, e.1.asString? = some fqn → e.2 = .mapping m → b.find? fqn ≠ some x) → e' = e
  refining : ∀ fqn m x, e.1.asString? = some fqn → e.2 = .mapping m → b.find? fqn = some x →
    ∃ m', e'.2 = .mapping m' ∧ (b.node x).payload.Completed m m'

/-- **Completion makes refinements self-sufficient**, but for the keys that they write with a null. -/
theorem complete_completed (hb : b.Linked) (hproper : ∀ x ∈ b.preorder, (b.node x).payload.Proper) (m : Mapping) :
    List.Forall₂ (EntryCompleted b) m (complete b m) := by
  rw [complete, List.forall₂_map_right_iff, List.forall₂_same]
  rintro ⟨key, value⟩ -
  dsimp only
  split
  · rename_i fqn entry hkey
    cases hfind : b.find? fqn with
    | none =>
      refine ⟨rfl, fun _ => rfl, fun fqn' m x hkey' _ hx => ?_⟩
      rw [hkey, Option.some.injEq] at hkey'
      subst hkey'
      rw [hfind] at hx
      cases hx
    | some x =>
      refine ⟨rfl, fun h => absurd hfind (h fqn entry x hkey rfl), fun fqn' m x' hkey' hm hx => ?_⟩
      rw [hkey, Option.some.injEq] at hkey'
      subst hkey'
      rw [hfind, Option.some.injEq] at hx
      subst hx
      cases hm
      exact ⟨_, rfl, Payload.completed_completeEntry (hproper x (Tree.mem_preorder_of_find? hb hfind)) entry⟩
  · rename_i hother
    exact ⟨rfl, fun _ => rfl, fun fqn m x hkey hm _ => (hother fqn m hkey hm).elim⟩

def redescribed : Mapping := [(.string "Cabin", .mapping [(.string "description", .string "roomy")])]

def untyped : Mapping :=
  [(.string "Cabin", .mapping [(.string "type", .null), (.string "description", .string "roomy")])]

theorem complete_redescribed : complete (.single "Cabin" (.branch "cabin")) redescribed =
      [(.string "Cabin", .mapping [(.string "description", .string "roomy"), (.string "type", .string "branch")])] ∧
    List.Forall₂ (EntryCompleted (.single "Cabin" (.branch "cabin"))) redescribed
      (complete (.single "Cabin" (.branch "cabin")) redescribed) := by
  refine ⟨by cbv, complete_completed (Tree.wellFormed_of_isOrdered (by decide)).linked (fun x hx => ?_) redescribed⟩
  rw [show Tree.preorder (.single "Cabin" (.branch "cabin")) = [0] by decide, List.mem_singleton] at hx
  rw [hx]
  exact Payload.proper_branch "cabin"

/-- The null stays, and the entry, whose type suits, is refused for the type that the base has. -/
theorem complete_untyped : Tree.find? (.single "Cabin" (.branch "cabin")) "Cabin" = some 0 ∧
    complete (.single "Cabin" (.branch "cabin")) untyped = untyped ∧
      ∃ m : Mapping, untyped = [(.string "Cabin", .mapping m)] ∧ (Payload.branch "cabin").Suits m ∧
        Payload.read {} (.mapping m) = .error (.missingField "type") := by
  refine ⟨by cbv, by cbv, _, rfl, fun v hv => ?_, rfl⟩
  cases hv
  exact .inl rfl

end Overlay
end SignalCatalog
