import SignalCatalog.Proofs.Merge.Kinds
import SignalCatalog.Proofs.Payload.Again
import SignalCatalog.Proofs.Value.Order
/-!
# The order of further attributes

A payload refined by another has first the further attributes that stay of its own, and then those that only the other
has.  Within the first part the order is the old one unless the kind changes: the fields that the new kind has not are
taken out of the raw form, and the last entries of it, which are the flags and before them the further attributes, move
into their places.
-/
namespace SignalCatalog
namespace Payload

variable {r : Registry} {m : Mapping} {b o p : Payload} {old k : Kind} {e : Value × Value} {v : Value}

/-! ## Dropped keys -/

theorem drops_eq_false_iff : drops old k v = false ↔ ∀ name ∈ dropped old k, v ≠ .string name := by
  rw [drops, List.any_eq_false]
  exact forall₂_congr fun name _ => not_congr (Value.same_string_iff name v)

theorem nodup_dropped (old k : Kind) : (dropped old k).Nodup := by cases old <;> cases k <;> decide

theorem isDeclared_of_drops (h : drops old k v = true) : isDeclared k v = false := by
  have hall : ∀ s ∈ dropped old k, k.declaredKeys.contains s = false := by cases old <;> cases k <;> decide
  obtain ⟨name, hname, hv⟩ := List.any_eq_true.1 h
  rw [Value.same_string_iff] at hv
  rw [hv]
  exact hall name hname

theorem drops_of_at {keys : List Key} (h : At keys m) (hkeys : ∀ key ∈ keys, key.name ∈ Kind.commonKeys) :
    ∀ e ∈ m, drops old k e.1 = false := by
  intro e he
  obtain ⟨key, hkey, heq⟩ := List.mem_map.1 (h.subset (List.mem_map_of_mem he))
  rw [← heq]
  exact drops_eq_false (Key.isOf_iff.2 (.inl (hkeys key hkey)))

theorem isDeclared_of_mem_entries (he : e ∈ p.flagEntries ∨ e ∈ p.fieldEntries) (hdrops : drops p.kind k e.1 = false) :
    isDeclared k e.1 = true := by
  obtain ⟨key, hkey, hof⟩ := exists_of_mem_entries he
  rw [hkey] at hdrops ⊢
  rw [isDeclared_name]
  by_contra hnot
  rw [drops_of_isOf hof hnot] at hdrops
  cases hdrops

theorem drops_of_mem_flagEntries (he : e ∈ p.flagEntries) : drops p.kind k e.1 = false :=
  drops_of_at p.at_flagEntries (by decide) e he

theorem datatypeKeys_sublist_dropped (hold : old.hasDatatype = true) (hk : k.hasDatatype = false) :
    List.Sublist Kind.datatypeKeys (dropped old k) := by
  have hne : k ≠ old := by
    rintro rfl
    rw [hold] at hk
    cases hk
  rw [dropped, if_neg hne, if_neg (by simp [hk])]
  exact List.sublist_append_left _ _

theorem branchKeys_sublist_dropped (hk : k ≠ .branch) : List.Sublist Kind.branchKeys (dropped .branch k) := by
  rw [dropped, if_neg hk, if_neg hk]
  exact List.sublist_append_right _ _

/-- The entries before the fields of the kind. -/
def leadingEntries (p : Payload) : Mapping :=
  [(.string "type", .string p.kind.name), (.string "description", .string p.common.description)] ++
    optional "comment" .string p.common.comment

/-- The entries between the datatype's fields and the instances. -/
def trailingEntries (p : Payload) : Mapping :=
  optional "deprecation" .string p.common.deprecation ++ optional "constUID" .string p.common.constUid ++
    unlessEmpty "fka" strings p.common.fka

theorem fieldEntries_eq (p : Payload) :
    p.fieldEntries = p.leadingEntries ++ (p.datatypeFields?.map datatypeEntries).getD [] ++ p.trailingEntries ++
    unlessEmpty "instances" Level.declaration p.instances := by
  simp only [fieldEntries, leadingEntries, trailingEntries, List.append_assoc]

theorem drops_of_mem_leadingEntries : ∀ e ∈ p.leadingEntries, drops old k e.1 = false :=
  drops_of_at (((at_singleton .type _).append (at_singleton .description _)).append
    (at_optional .comment _ _)) (by decide)

theorem drops_of_mem_trailingEntries : ∀ e ∈ p.trailingEntries, drops old k e.1 = false :=
  drops_of_at (((at_optional .deprecation _ _).append (at_optional .constUid _ _)).append
    (at_unlessEmpty .fka _ _)) (by decide)

/-- **A block of the fields** that are dropped, in the order in which they are, between fields that are not. -/
structure Block (p : Payload) (k : Kind) (pre block post : Mapping) : Prop where
  fields : p.fieldEntries = pre ++ block ++ post
  named : List.Sublist (block.map (·.1)) ((dropped p.kind k).map Value.string)
  before : ∀ e ∈ pre, drops p.kind k e.1 = false
  behind : ∀ e ∈ post, drops p.kind k e.1 = false

theorem block_of_subset (h : ∀ key : Key, key.IsOf p.kind → key.IsOf k) : Block p k p.fieldEntries [] [] where
  fields := by simp
  named := List.nil_sublist _
  before := by
    intro e he
    obtain ⟨key, hkey, hof⟩ := exists_of_mem_entries (.inr he)
    rw [hkey]
    exact drops_eq_false (h key hof)
  behind := by simp

/-- A branch has no datatype and its instances last. -/
theorem block_of_branch (h : p.kind = .branch) (hk : k ≠ .branch) :
    Block p k (p.leadingEntries ++ p.trailingEntries) (unlessEmpty "instances" Level.declaration p.instances) [] where
  fields := by
    have hnone : p.datatypeFields? = none := datatypeFields?_eq_none (by rw [h]; rfl)
    simp [fieldEntries_eq, hnone]
  named := by
    rw [h]
    exact (at_unlessEmpty .instances Level.declaration p.instances).trans
      ((branchKeys_sublist_dropped hk).map Value.string)
  before := List.forall_mem_append.2 ⟨drops_of_mem_leadingEntries, drops_of_mem_trailingEntries⟩
  behind := by simp

/-- The datatype's fields come between the common ones. -/
theorem block_of_datatype (h : p.kind.hasDatatype = true) (hk : k.hasDatatype = false) :
    Block p k p.leadingEntries ((p.datatypeFields?.map datatypeEntries).getD []) p.trailingEntries where
  fields := by
    have hinstances : p.instances = [] := instances_eq_nil fun hbranch => by
      rw [hbranch] at h
      cases h
    simp [fieldEntries_eq, hinstances, unlessEmpty]
  named := by
    cases p.datatypeFields? with
    | none => exact List.nil_sublist _
    | some fields => exact (at_datatypeEntries fields).trans ((datatypeKeys_sublist_dropped h hk).map Value.string)
  before := drops_of_mem_leadingEntries
  behind := drops_of_mem_trailingEntries

/-- **The fields that are dropped stand together.** -/
theorem exists_block (p : Payload) (k : Kind) : ∃ pre block post, Block p k pre block post := by
  by_cases hsubset : ∀ key : Key, key.IsOf p.kind → key.IsOf k
  · exact ⟨_, _, _, block_of_subset hsubset⟩
  by_cases hbranch : p.kind = .branch
  · exact ⟨_, _, _, block_of_branch hbranch fun hk => hsubset fun _ h => by rwa [hk, ← hbranch]⟩
  by_cases hdatatype : p.kind.hasDatatype = true
  · refine ⟨_, _, _, block_of_datatype hdatatype ?_⟩
    by_contra hk
    refine hsubset fun key hof => ?_
    rw [Key.isOf_iff, ownKeys_of_hasDatatype hdatatype] at hof
    rwa [Key.isOf_iff, ownKeys_of_hasDatatype (by simpa using hk)]
  · -- a struct has the common fields only
    have hstruct : p.kind.ownKeys = [] := by
      cases hk : p.kind with
      | branch => exact absurd hk hbranch
      | struct => rfl
      | attr | sensor | actuator | property => exact absurd (hk ▸ rfl) hdatatype
    refine absurd (fun key hof => Key.isOf_iff.2 (.inl ?_)) hsubset
    rw [Key.isOf_iff, hstruct] at hof
    simpa using hof

/-! ## Attributes that stay -/

/-- **The further attributes that another kind does not declare.** -/
def stillExtra (p : Payload) (k : Kind) : Mapping := p.common.extra.filter fun e => !isDeclared k e.1

/-- Those of them that a change to the other kind drops. -/
def lost (p : Payload) (k : Kind) : Mapping := p.common.extra.filter fun e => drops p.kind k e.1

/-- **The further attributes that stay** when the fields that another kind has not were taken out of the raw form. -/
def remaining (p : Payload) (k : Kind) : Mapping := (dropForeign p.kind k p.raw).filter fun e => !isDeclared k e.1

/-- **How many further attributes move** with a change to another kind: one for each field that is dropped, but for
those whose places the flags take. -/
def displaced (p : Payload) (k : Kind) : Nat :=
  (p.fieldEntries.countP fun e => drops p.kind k e.1) - p.flagEntries.length

theorem filter_drops_stillExtra (p : Payload) (k : Kind) :
    (p.stillExtra k).filter (fun e => drops p.kind k e.1) = p.lost k := by
  rw [stillExtra, lost, List.filter_filter]
  refine List.filter_congr fun e _ => ?_
  cases h : drops p.kind k e.1 with
  | false => rfl
  | true => simp [isDeclared_of_drops h]

theorem filter_of_declared {entries : Mapping} (h : ∀ e ∈ entries, isDeclared k e.1 = true) :
    entries.filter (fun e => !isDeclared k e.1) = [] :=
  List.filter_eq_nil_iff.2 fun e he => by simp [h e he]

/-- What stays are the attributes that are still extra and not lost, in some order. -/
theorem remaining_perm (hp : p.Proper) (k : Kind) :
    List.Perm (p.remaining k) ((p.stillExtra k).filter fun e => !drops p.kind k e.1) := by
  have hraw := (Mapping.foldl_remove_perm (keyed_raw hp) (dropped p.kind k)).filter fun e => !isDeclared k e.1
  have hentries : ∀ {entries : Mapping}, (∀ e ∈ entries, e ∈ p.flagEntries ∨ e ∈ p.fieldEntries) →
      (entries.filter fun e => !drops p.kind k e.1).filter (fun e => !isDeclared k e.1) = [] := by
    intro entries h
    refine filter_of_declared fun e he => ?_
    obtain ⟨hmem, hdrops⟩ := List.mem_filter.1 he
    exact isDeclared_of_mem_entries (h e hmem) (by simpa using hdrops)
  rw [remaining, dropForeign_eq]
  refine hraw.trans (List.Perm.of_eq ?_)
  change (p.raw.filter fun e : Value × Value => !drops p.kind k e.1).filter _ = _
  rw [raw_eq_append hp, List.filter_append, List.filter_append, List.filter_append, List.filter_append,
    hentries fun e he => .inr he, hentries fun e he => .inl he, List.nil_append, List.append_nil, stillExtra]
  exact List.filter_comm _ _ _

namespace Block

variable {pre block post : Mapping}

theorem raw (h : Block p k pre block post) (hp : p.Proper) :
    p.raw = pre ++ block ++ (post ++ p.common.extra ++ p.flagEntries) := by
  rw [raw_eq_append hp, h.fields]
  simp only [List.append_assoc]

theorem length_eq (h : Block p k pre block post) :
    block.length = p.fieldEntries.countP fun e => drops p.kind k e.1 := by
  have hbefore : pre.countP (fun e => drops p.kind k e.1) = 0 :=
    List.countP_eq_zero.2 fun e he => by simp [h.before e he]
  have hbehind : post.countP (fun e => drops p.kind k e.1) = 0 :=
    List.countP_eq_zero.2 fun e he => by simp [h.behind e he]
  have hblock : ∀ e ∈ block, drops p.kind k e.1 = true := by
    intro e he
    obtain ⟨name, hname, heq⟩ := List.mem_map.1 (h.named.subset (List.mem_map_of_mem he))
    exact List.any_eq_true.2 ⟨name, hname, heq ▸ Value.same_refl _⟩
  rw [h.fields, List.countP_append, List.countP_append, hbefore, hbehind, List.countP_eq_length.2 hblock,
    Nat.zero_add, Nat.add_zero]

theorem declared_before (h : Block p k pre block post) : ∀ e ∈ pre, isDeclared k e.1 = true := fun e he =>
  isDeclared_of_mem_entries (.inr (by simp [h.fields, he])) (h.before e he)

theorem declared_behind (h : Block p k pre block post) : ∀ e ∈ post, isDeclared k e.1 = true := fun e he =>
  isDeclared_of_mem_entries (.inr (by simp [h.fields, he])) (h.behind e he)

end Block

/-- **Where no further attribute is lost**, the last ones stand first in reverse, as many as move. -/
theorem remaining_eq (hp : p.Proper) (hlost : p.lost k = []) : p.remaining k =
    ((p.common.extra.drop (p.common.extra.length - p.displaced k)).reverse ++
      p.common.extra.take (p.common.extra.length - p.displaced k)).filter fun e => !isDeclared k e.1 := by
  obtain ⟨pre, block, post, hblock⟩ := p.exists_block k
  have hextra : ∀ e ∈ p.common.extra, drops p.kind k e.1 = false :=
    fun e he => by simpa using List.filter_eq_nil_iff.1 hlost e he
  have htail : ∀ e ∈ post ++ p.common.extra ++ p.flagEntries, ∀ name ∈ dropped p.kind k, e.1 ≠ .string name :=
    List.forall_mem_append.2 ⟨List.forall_mem_append.2 ⟨fun e he => drops_eq_false_iff.1 (hblock.behind e he),
      fun e he => drops_eq_false_iff.1 (hextra e he)⟩, fun e he => drops_eq_false_iff.1 (drops_of_mem_flagEntries he)⟩
  -- only the further attributes are none of the other kind's fields
  have hbefore : ∀ e ∈ pre, (!isDeclared k e.1) = false := fun e he => by simp [hblock.declared_before e he]
  have hbehind : ∀ e ∈ post, (!isDeclared k e.1) = false := fun e he => by simp [hblock.declared_behind e he]
  have hflags : ∀ e ∈ p.flagEntries, (!isDeclared k e.1) = false := fun e he => by
    simp [isDeclared_of_mem_entries (.inl he) (drops_of_mem_flagEntries he)]
  have hfrom : (post ++ p.common.extra ++ p.flagEntries).length - block.length - post.length =
      p.common.extra.length + p.flagEntries.length - block.length := by
    simp only [List.length_append]
    omega
  have hkeyed := keyed_raw hp
  rw [hblock.raw hp] at hkeyed
  rw [remaining, dropForeign_eq, hblock.raw hp, Mapping.foldl_remove_block hkeyed (nodup_dropped _ _) hblock.named
    (fun e he => drops_eq_false_iff.1 (hblock.before e he)) htail, List.take_reverse, List.filter_append,
    List.filter_append, List.filter_append,
    List.filter_reverse, List.filter_reverse, filter_of_sublist (List.Sublist.refl _) hbefore, List.nil_append,
    filter_drop_within hbehind hflags,
    filter_take_within hbehind hflags, hfrom, displaced, ← hblock.length_eq]
  rcases Nat.le_total block.length p.flagEntries.length with hle | hle
  · -- the flags alone move
    rw [Nat.sub_eq_zero_of_le hle, Nat.sub_zero, List.drop_of_length_le (by omega), List.drop_length,
      List.take_of_length_le (by omega), List.take_length]
  · rw [show p.common.extra.length + p.flagEntries.length - block.length =
      p.common.extra.length - (block.length - p.flagEntries.length) by omega]

/-! ## Attributes of refined payloads -/

theorem extra_of_refine (hb : b.Proper) (ho : o.Proper) (h : refine r b o = .ok p) :
    p.common.extra = (b.remaining o.kind).overlaid o.common.extra := by
  obtain ⟨hextra, -⟩ := get_of_readFields (readFields_of_refine h)
  have hkeyed : (b.remaining o.kind).Keyed := (keyed_dropForeign (keyed_raw hb)).sublist List.filter_sublist
  rw [hextra, kind_of_refine hb ho h, refinedEntries, Mapping.filter_extend isDeclared_of_same, filter_raw ho,
    ← Mapping.extend_eq_overlaid hkeyed ho.keyed, remaining]

theorem keyed_stillExtra (hp : p.Proper) : (p.stillExtra k).Keyed := hp.keyed.sublist List.filter_sublist

/-- **Where no further attribute is lost**, those that stay keep their order just when none of them moves, or there
is but one. -/
theorem stillExtra_eq_remaining_iff (hp : p.Proper) (hlost : p.lost k = []) :
    p.stillExtra k = p.remaining k ↔ (p.stillExtra k).length ≤ 1 ∨
    ∀ e ∈ p.common.extra.drop (p.common.extra.length - p.displaced k), isDeclared k e.1 = true := by
  have hstill : p.stillExtra k = ((p.common.extra.take (p.common.extra.length - p.displaced k)).filter fun e =>
      !isDeclared k e.1) ++
      (p.common.extra.drop (p.common.extra.length - p.displaced k)).filter fun e => !isDeclared k e.1 := by
    rw [← List.filter_append, List.take_append_drop, stillExtra]
  have hnodup := (keyed_stillExtra (k := k) hp).nodup
  rw [hstill] at hnodup ⊢
  rw [remaining_eq hp hlost, List.filter_append, List.filter_reverse, eq_comm, reverse_append_eq_iff hnodup,
    List.filter_eq_nil_iff, or_comm]
  simp

/-- **The further attributes of a payload refined by another**, in their order. -/
structure Attributed (b o p : Payload) : Prop where
  /-- The attributes that stay of the first payload come first, then those that only the second has, in its order. -/
  extra : p.common.extra = (b.remaining o.kind).overlaid o.common.extra
  /-- All stay that the second's kind does not declare, less those that the change of kind drops; -/
  stay : List.Perm (b.remaining o.kind) ((b.stillExtra o.kind).filter fun e => !drops b.kind o.kind e.1)
  /-- the last ones stand first, in reverse, as many as move. -/
  moved : b.lost o.kind = [] → b.remaining o.kind =
    ((b.common.extra.drop (b.common.extra.length - b.displaced o.kind)).reverse ++
      b.common.extra.take (b.common.extra.length - b.displaced o.kind)).filter fun e => !isDeclared o.kind e.1
  /-- Without a change of kind all stay in their order. -/
  unchanged : b.kind = o.kind → p.common.extra = b.common.extra.overlaid o.common.extra
  /-- **The order of the sources is kept** just when the attributes that stay are in their order and before those that
  are dropped, and the second payload gives these again, in their order and before all that only it has. -/
  ordered : p.common.extra = (b.stillExtra o.kind).overlaid o.common.extra ↔
    b.stillExtra o.kind = b.remaining o.kind ++ b.lost o.kind ∧
    (o.common.extra.filter fun e => !(b.remaining o.kind).contains e.1) =
      (b.lost o.kind).map (Mapping.updated o.common.extra) ++ o.common.extra.filter fun e =>
        !(b.stillExtra o.kind).contains e.1
  /-- Where none is dropped, it is kept just when none that is still extra moves, or there is but one. -/
  unmoved : b.lost o.kind = [] → (p.common.extra = (b.stillExtra o.kind).overlaid o.common.extra ↔
    (b.stillExtra o.kind).length ≤ 1 ∨
    ∀ e ∈ b.common.extra.drop (b.common.extra.length - b.displaced o.kind), isDeclared o.kind e.1 = true)

/-- **A refinement keeps the order of the further attributes but for a change of kind**, which moves the last ones where
it takes fields out before them. -/
theorem refine_attributes (hb : b.Proper) (ho : o.Proper) (h : refine r b o = .ok p) : Attributed b o p := by
  have hextra := extra_of_refine hb ho h
  have hstay := remaining_perm hb o.kind
  have hordered : p.common.extra = (b.stillExtra o.kind).overlaid o.common.extra ↔
      b.stillExtra o.kind = b.remaining o.kind ++ b.lost o.kind ∧
      (o.common.extra.filter fun e => !(b.remaining o.kind).contains e.1) =
        (b.lost o.kind).map (Mapping.updated o.common.extra) ++ o.common.extra.filter fun e =>
          !(b.stillExtra o.kind).contains e.1 := by
    rw [hextra, Mapping.overlaid_eq_overlaid_iff (keyed_stillExtra hb) hstay, filter_drops_stillExtra]
  refine ⟨hextra, hstay, remaining_eq hb, fun hkind => ?_, hordered, fun hlost => ?_⟩
  · rw [hextra, remaining, ← hkind, dropForeign_self, filter_raw hb]
  · rw [hordered, hlost, List.append_nil, List.map_nil, List.nil_append, ← stillExtra_eq_remaining_iff hb hlost]
    exact and_iff_left_of_imp fun heq => by rw [heq]

def measuredDoor (delete : Bool) : Payload where
  common :=
    { description := "door", delete, extra := [(.string "color", .string "red"), (.string "size", .number (.int 2))] }
  body := .attr { datatype := "uint8" }

theorem proper_measuredDoor (delete : Bool) : (measuredDoor delete).Proper := by
  refine ⟨⟨?_, ?_⟩, List.forall_mem_cons.2 ⟨rfl, List.forall_mem_singleton.2 rfl⟩,
    by simp [measuredDoor, get, datatypeFields?]⟩
  · simp [measuredDoor, Mapping.Distinct, Value.same]
  · simp [measuredDoor, Value.repeatsKey]

def shadedDoor : Payload where
  common := { description := "door", extra := [(.string "shade", .string "dark"), (.string "size", .number (.int 3))] }
  body := .branch []

theorem proper_shadedDoor : shadedDoor.Proper := by
  refine ⟨⟨?_, ?_⟩, List.forall_mem_cons.2 ⟨rfl, List.forall_mem_singleton.2 rfl⟩,
    by simp [shadedDoor, get, datatypeFields?]⟩
  · simp [shadedDoor, Mapping.Distinct, Value.same]
  · simp [shadedDoor, Value.repeatsKey]

def remeasuredDoor : Payload where
  common := { description := "door", delete := true,
              extra := [(.string "color", .string "red"), (.string "size", .number (.int 3)),
                (.string "shade", .string "dark")] }
  body := .branch []

/-- The mark for removal takes the place of the datatype, so no further attribute moves. -/
theorem refine_shaded : refine {} (measuredDoor true) shadedDoor = .ok remeasuredDoor ∧
    remeasuredDoor.common.extra = ((measuredDoor true).stillExtra .branch).overlaid shadedDoor.common.extra := by
  have hrefine : refine {} (measuredDoor true) shadedDoor = .ok remeasuredDoor := by cbv
  have hnone : (measuredDoor true).displaced shadedDoor.kind = 0 := rfl
  have hattributed := refine_attributes (proper_measuredDoor true) proper_shadedDoor hrefine
  exact ⟨hrefine, (hattributed.unmoved rfl).2 (.inr (by simp [hnone]))⟩

/-- **Without the mark the last attribute takes the place of the datatype** and stands before the other. -/
theorem refine_swapped : ∃ p, refine {} (measuredDoor false) (branch "door") = .ok p ∧
    p.common.extra = [(.string "size", .number (.int 2)), (.string "color", .string "red")] ∧
      p.common.extra ≠ ((measuredDoor false).stillExtra .branch).overlaid (branch "door").common.extra := by
  have hrefine : refine {} (measuredDoor false) (branch "door") = .ok
      { branch "door" with common := { description := "door", extra :=
        [(.string "size", .number (.int 2)), (.string "color", .string "red")] } } := by cbv
  have hsources : ((measuredDoor false).stillExtra .branch).overlaid (branch "door").common.extra =
      [(.string "color", .string "red"), (.string "size", .number (.int 2))] := rfl
  refine ⟨_, hrefine, rfl, ?_⟩
  rw [hsources]
  simp

end Payload
end SignalCatalog
