import SignalCatalog.Proofs.Spec.Entries
import SignalCatalog.Proofs.Value.Order
import SignalCatalog.Spec.Update
/-!
# Mappings refined by mappings

A deep update takes the entries of the second mapping into the first one, each with a value that depends on these two
mappings alone: an earlier entry has another key, so it does not change what a later one finds.  Keys, order and
look-ups of the outcome then are those of an extension.
-/
namespace SignalCatalog

namespace Mapping

variable {b u m : Mapping} {key key' v : Value} {e : Value × Value} {path : List Value}

theorem Keyed.map_values (h : m.Keyed) (value : Value × Value → Value) : Keyed (m.map fun e => (e.1, value e)) :=
  ⟨List.pairwise_map.2 h.distinct, List.forall_mem_map.2 h.keys⟩

theorem lookup?_congr (hkey : key.repeatsKey = false) (hkey' : key'.repeatsKey = false) (h : key.same key' = true) :
    m.lookup? key = m.lookup? key' := by
  have hiff (e : Value × Value) : key.same e.1 = key'.same e.1 :=
    Bool.eq_iff_iff.2 ⟨Value.same_trans (Value.same_symm hkey hkey' h), Value.same_trans h⟩
  rw [lookup?, lookup?]
  simp only [hiff]

theorem repeatsKey_of_lookup? (hm : Value.repeatsKeyEntries m = false) (h : m.lookup? key = some v) :
    v.repeatsKey = false := by
  obtain ⟨e, hfind, rfl⟩ := Option.map_eq_some_iff.1 h
  exact ((Value.repeatsKeyEntries_eq_false.1 hm).2 e (List.mem_of_find?_eq_some hfind)).2

/-! ## Entries -/

/-- **The value that a mapping gets at a key**: what it has there, refined.  Anything refines null, as it
does nothing. -/
def refined (b : Mapping) (key v : Value) : Value := ((b.lookup? key).getD .null).refineBy v

theorem refineBy_null (v : Value) : Value.refineBy .null v = v := by cases v <;> rfl

theorem deepUpdate_cons : b.deepUpdate (e :: u) = (b.insert e.1 (b.refined e.1 e.2)).deepUpdate u := by
  obtain ⟨k, v⟩ := e
  rw [refined]
  cases hfound : b.lookup? k <;> simp [deepUpdate, Value.refineEntries, hfound, refineBy_null]

theorem refined_insert (hb : b.Keyed) (hkey : key.repeatsKey = false) (hkey' : key'.repeatsKey = false)
    (h : key'.same key = false) (w : Value) :
    (b.insert key w).refined key' v = b.refined key' v := by
  rw [refined, refined, lookup?_insert hb hkey hkey', h, if_neg Bool.false_ne_true]

/-- **Entries are taken in independently** of one another. -/
theorem deepUpdate_eq_extend (hb : b.Keyed) (hu : u.Keyed) :
    b.deepUpdate u = b.extend (u.map fun e => (e.1, b.refined e.1 e.2)) := by
  induction u generalizing b with
  | nil => rfl
  | cons e u ih =>
    obtain ⟨hfirst, -⟩ := List.pairwise_cons.1 hu.distinct
    have he := hu.keys e List.mem_cons_self
    have hrest : (u.map fun x => (x.1, (b.insert e.1 (b.refined e.1 e.2)).refined x.1 x.2)) = u.map fun x =>
        (x.1, b.refined x.1 x.2) :=
      List.map_congr_left fun x hx => by
        have hx' := hu.keys x (List.mem_cons_of_mem _ hx)
        rw [refined_insert hb he hx' (by rw [same_comm hx' he, hfirst x hx])]
    rw [deepUpdate_cons, ih (hb.insert he _) (hu.sublist (List.sublist_cons_self _ _)), hrest]
    rfl

theorem keyed_deepUpdate (hb : b.Keyed) (hu : u.Keyed) : (b.deepUpdate u).Keyed := by
  rw [deepUpdate_eq_extend hb hu]
  exact hb.extend (hu.map_values _)

theorem lookup?_map_refined (hu : u.Keyed) (hkey : key.repeatsKey = false) :
    lookup? (u.map fun e => (e.1, b.refined e.1 e.2)) key = (u.lookup? key).map (b.refined key) := by
  induction u with
  | nil => rfl
  | cons e u ih =>
    rw [List.map_cons, lookup?_cons, lookup?_cons, ih (hu.sublist (List.sublist_cons_self _ _))]
    split
    · rename_i hsame
      rw [Option.map_some, refined, refined, lookup?_congr hkey (hu.keys e List.mem_cons_self) hsame]
    · rfl

/-- **What is found in the outcome**: at a key of the second mapping the refined value, at any other key what the
first one has. -/
theorem lookup?_deepUpdate (hb : b.Keyed) (hu : u.Keyed) (hkey : key.repeatsKey = false) :
    (b.deepUpdate u).lookup? key = ((u.lookup? key).map (b.refined key)).or (b.lookup? key) := by
  rw [deepUpdate_eq_extend hb hu, lookup?_extend hb (hu.map_values _) hkey, lookup?_map_refined hu hkey]

theorem lookup?_deepUpdate_of_mem (hb : b.Keyed) (hu : u.Keyed) (he : e ∈ u) :
    (b.deepUpdate u).lookup? e.1 = some (b.refined e.1 e.2) := by
  rw [lookup?_deepUpdate hb hu (hu.keys e he), (lookup?_eq_some hu (hu.keys e he)).2 ⟨e, he, Value.same_refl _, rfl⟩]
  rfl

theorem keys_deepUpdate (hb : b.Keyed) (hu : u.Keyed) :
    (b.deepUpdate u).keys = b.keys ++ keys (u.filter fun e => !b.contains e.1) := by
  rw [deepUpdate_eq_extend hb hu, extend_eq_overlaid hb (hu.map_values _), overlaid, List.filter_map, keys,
    List.map_append, List.map_map, List.map_map]
  rfl

theorem deepUpdate_nil (hu : u.Keyed) : Mapping.deepUpdate [] u = u := by
  have hself (e : Value × Value) : (e.1, Mapping.refined [] e.1 e.2) = e := Prod.ext rfl (refineBy_null e.2)
  rw [deepUpdate_eq_extend keyed_nil hu, List.map_congr_left fun e _ => hself e, List.map_id']
  exact ofPairs_of_keyed hu

/-! ## Values -/

/-- **What a value keeps when it refines others**: no key is repeated, and to refine once more changes nothing. -/
structure Settles (v : Value) : Prop where
  repeatsKey : ∀ current : Value, current.repeatsKey = false → (current.refineBy v).repeatsKey = false
  again : ∀ current : Value, current.repeatsKey = false → (current.refineBy v).refineBy v = current.refineBy v

section Entries

variable (hb : Value.repeatsKeyEntries b = false) (hu : Value.repeatsKeyEntries u = false)
  (hsettles : ∀ e ∈ u, Settles e.2)
include hb hu hsettles

theorem Settles.repeatsKeyEntries : Value.repeatsKeyEntries (b.deepUpdate u) = false := by
  obtain ⟨hbkeyed, -⟩ := Spec.repeatsKeyEntries_iff_keyed.1 hb
  obtain ⟨hukeyed, -⟩ := Spec.repeatsKeyEntries_iff_keyed.1 hu
  have hkeyed := keyed_deepUpdate hbkeyed hukeyed
  refine Spec.repeatsKeyEntries_iff_keyed.2 ⟨hkeyed, fun x hx => ?_⟩
  have hxkey := hkeyed.keys x hx
  have hfound := (lookup?_eq_some hkeyed hxkey).2 ⟨x, hx, Value.same_refl _, rfl⟩
  rw [lookup?_deepUpdate hbkeyed hukeyed hxkey] at hfound
  cases hnew : u.lookup? x.1 with
  | none =>
    rw [hnew] at hfound
    exact repeatsKey_of_lookup? hb hfound
  | some v =>
    rw [hnew] at hfound
    obtain ⟨e, he, -, rfl⟩ := (lookup?_eq_some hukeyed hxkey).1 hnew
    rw [← Option.some.inj hfound]
    refine (hsettles e he).repeatsKey _ ?_
    cases hold : b.lookup? x.1 with
    | none => rfl
    | some current => exact repeatsKey_of_lookup? hb hold

theorem Settles.deepUpdate_again : (b.deepUpdate u).deepUpdate u = b.deepUpdate u := by
  obtain ⟨hbkeyed, -⟩ := Spec.repeatsKeyEntries_iff_keyed.1 hb
  obtain ⟨hukeyed, -⟩ := Spec.repeatsKeyEntries_iff_keyed.1 hu
  rw [deepUpdate_eq_extend (keyed_deepUpdate hbkeyed hukeyed) hukeyed]
  refine extend_of_lookup? (List.forall_mem_map.2 fun e he => ?_)
  have hfound := lookup?_deepUpdate_of_mem hbkeyed hukeyed he
  dsimp only
  rw [refined, hfound, Option.getD_some, refined]
  refine congrArg some ((hsettles e he).again _ ?_).symm
  cases hold : b.lookup? e.1 with
  | none => rfl
  | some current => exact repeatsKey_of_lookup? hb hold

end Entries

/-- **Every value settles**, whatever is nested in it. -/
theorem settles_of_repeatsKey (hv : v.repeatsKey = false) : Settles v := by
  induction v using Value.induction with
  | mapping entries ih =>
    have hsettles : ∀ e ∈ entries, Settles e.2 :=
      fun e he => (ih e he).2 ((Value.repeatsKeyEntries_eq_false.1 hv).2 e he).2
    have hself := Settles.deepUpdate_again (b := []) rfl hv hsettles
    rw [deepUpdate_nil (Spec.repeatsKeyEntries_iff_keyed.1 hv).1] at hself
    refine ⟨fun current hcurrent => ?_, fun current hcurrent => ?_⟩
    · cases current with
      | mapping base => exact Settles.repeatsKeyEntries hcurrent hv hsettles
      | _ => exact hv
    · cases current with
      | mapping base => exact congrArg Value.mapping (Settles.deepUpdate_again hcurrent hv hsettles)
      | _ => exact congrArg Value.mapping hself
  | _ => exact ⟨fun _ _ => hv, fun _ _ => rfl⟩

/-! ## Every level -/

/-- **The mapping at a path of keys**, through mappings without tags. -/
def within? (m : Mapping) : List Value → Option Mapping
  | [] => some m
  | key :: path =>
    match m.lookup? key with
    | some (.mapping inner) => within? inner path
    | _ => none

/-- **A mapping updated by another one**: its keys in their order and then the new ones in theirs; at a key of the
other one, two mappings are put together by a deep update and anything else gives way, and at any other key it has
what it had. -/
structure Updated (b u m : Mapping) : Prop where
  keys : m.keys = b.keys ++ Mapping.keys (u.filter fun e => !b.contains e.1)
  lookup? : ∀ key : Value, key.repeatsKey = false → m.lookup? key =
    match b.lookup? key, u.lookup? key with
    | some (.mapping current), some (.mapping incoming) => some (.mapping (Mapping.deepUpdate current incoming))
    | _, some v => some v
    | current, none => current

theorem updated_deepUpdate (hb : b.Keyed) (hu : u.Keyed) : Updated b u (b.deepUpdate u) where
  keys := keys_deepUpdate hb hu
  lookup? := fun key hkey => by
    rw [lookup?_deepUpdate hb hu hkey]
    cases hnew : u.lookup? key with
    | none =>
      cases b.lookup? key with
      | none => rfl
      | some current => cases current <;> rfl
    | some v =>
      rw [Option.map_some, Option.some_or, refined]
      cases b.lookup? key with
      | none => exact congrArg some (refineBy_null v)
      | some current => cases current <;> cases v <;> rfl

/-- **Where both have a mapping**, the update has the update of the one by the other. -/
theorem within?_deepUpdate {b' u' : Mapping} (hb : Value.repeatsKeyEntries b = false)
    (hu : Value.repeatsKeyEntries u = false) (hpath : ∀ key ∈ path, key.repeatsKey = false)
    (hb' : b.within? path = some b') (hu' : u.within? path = some u') :
    (b.deepUpdate u).within? path = some (b'.deepUpdate u') ∧ Updated b' u' (b'.deepUpdate u') := by
  induction path generalizing b u with
  | nil =>
    cases hb'
    cases hu'
    exact ⟨rfl, updated_deepUpdate (Spec.repeatsKeyEntries_iff_keyed.1 hb).1 (Spec.repeatsKeyEntries_iff_keyed.1 hu).1⟩
  | cons key path ih =>
    obtain ⟨hkey, hpath⟩ := List.forall_mem_cons.1 hpath
    have hfound :=
      (updated_deepUpdate (Spec.repeatsKeyEntries_iff_keyed.1 hb).1 (Spec.repeatsKeyEntries_iff_keyed.1 hu).1).lookup?
        key hkey
    rw [within?] at hb' hu' ⊢
    split at hb'
    · rename_i current hcurrent
      split at hu'
      · rename_i incoming hincoming
        rw [hcurrent, hincoming] at hfound
        rw [hfound]
        exact ih (repeatsKey_of_lookup? hb hcurrent) (repeatsKey_of_lookup? hu hincoming) hpath hb' hu'
      · cases hu'
    · cases hb'

/-- **Deep updates.**  Of any two mappings without repeated keys, at every path of keys at which both have a mapping the
update has one, with the keys of the first in their order and then the new ones of the second in theirs; at a key of the
second it has the update of the one value by the other where both are mappings without a tag, and the second one's value
otherwise, and at every other key what the first has.  To update once more changes nothing. -/
theorem deepUpdate_law (b u : Mapping) (hb : Value.repeatsKeyEntries b = false)
    (hu : Value.repeatsKeyEntries u = false) :
    (∀ path b' u', (∀ key ∈ path, Value.repeatsKey key = false) → b.within? path = some b' → u.within? path = some u' →
      (b.deepUpdate u).within? path = some (b'.deepUpdate u') ∧ Updated b' u' (b'.deepUpdate u')) ∧
    (b.deepUpdate u).deepUpdate u = b.deepUpdate u :=
  ⟨fun _ _ _ hpath hb' hu' => within?_deepUpdate hb hu hpath hb' hu',
    Settles.deepUpdate_again hb hu fun e he => settles_of_repeatsKey ((Value.repeatsKeyEntries_eq_false.1 hu).2 e he).2⟩

def lockedDoor : Mapping :=
  [(.string "Door", .mapping [(.string "color", .string "red"),
    (.string "lock", .mapping [(.string "kind", .string "bolt")])]),
    (.string "Hood", .mapping [])]

def codedDoor : Mapping :=
  [(.string "Roof", .mapping []),
    (.string "Door", .mapping [(.string "handle", .tagged ⟨"metal"⟩ (.mapping [])), (.string "color", .null),
      (.string "lock", .mapping [(.string "code", .number (.int 7))])])]

/-- **The door in its new order**, and the lock below it. -/
theorem deepUpdate_lockedDoor : Value.repeatsKeyEntries lockedDoor = false ∧ Value.repeatsKeyEntries codedDoor = false ∧
    (lockedDoor.deepUpdate codedDoor).keys = [.string "Door", .string "Hood", .string "Roof"] ∧
    (lockedDoor.deepUpdate codedDoor).within? [.string "Door", .string "lock"] =
      some [(.string "kind", .string "bolt"), (.string "code", .number (.int 7))] ∧
    (lockedDoor.deepUpdate codedDoor).deepUpdate codedDoor = lockedDoor.deepUpdate codedDoor := by
  have hb : Value.repeatsKeyEntries lockedDoor = false := by decide
  have hu : Value.repeatsKeyEntries codedDoor = false := by decide
  obtain ⟨hlevels, hagain⟩ := deepUpdate_law lockedDoor codedDoor hb hu
  have hdoor := (hlevels [] _ _ (by simp) rfl rfl).2.keys
  have hlock := (hlevels [.string "Door", .string "lock"] _ _ (by simp [Value.repeatsKey]) rfl rfl).1
  exact ⟨hb, hu, hdoor, hlock, hagain⟩

end Mapping
end SignalCatalog
