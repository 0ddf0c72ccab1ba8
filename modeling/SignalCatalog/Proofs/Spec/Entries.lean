import SignalCatalog.Proofs.Yaml.Keyed
import SignalCatalog.Spec.Load
/-!
# Entries put together

The entries of a file have each key once, and a scope in front of their names changes nothing about that.  Included
entries are added until one of them has a key that is there already.
-/
namespace SignalCatalog

namespace Mapping

variable {m m' base included : Mapping} {k : Value}

/-- **A key that two entries have**, as the later of them writes it. -/
def Twice (m : Mapping) (k : Value) : Prop := ∃ e e', List.Sublist [e, e'] m ∧ e'.1.same e.1 = true ∧ e'.1 = k

theorem Twice.mono (hs : List.Sublist m m') (h : m.Twice k) : Twice m' k := by
  obtain ⟨e, e', hpair, h⟩ := h
  exact ⟨e, e', hpair.trans hs, h⟩

theorem keyed_singleton (h : k.repeatsKey = false) (v : Value) : Keyed [(k, v)] :=
  ⟨List.pairwise_singleton _ _, by simpa using h⟩

theorem Keyed.concat (h : base.Keyed) (hk : k.repeatsKey = false) (v : Value) (hnew : base.contains k = false) :
    Keyed (base ++ [(k, v)]) := by
  refine keyed_append.2 ⟨h, keyed_singleton hk v, fun e he e' he' => ?_⟩
  rw [List.mem_singleton.1 he', same_comm (h.keys e he) hk]
  exact contains_eq_false.1 hnew e he

theorem addNew_cases (hbase : base.Keyed) (hkeys : ∀ e ∈ included, e.1.repeatsKey = false) :
    (base.addNew included = (base ++ included, none) ∧ Keyed (base ++ included)) ∨
      ∃ m k, base.addNew included = (m, some k) ∧ Twice (base ++ included) k := by
  induction included generalizing base with
  | nil => exact .inl ⟨by simp [addNew], by simpa using hbase⟩
  | cons e included ih =>
    obtain ⟨k, v⟩ := e
    obtain ⟨hk, hrest⟩ := List.forall_mem_cons.1 hkeys
    rw [addNew]
    by_cases hcontains : base.contains k = true
    · rw [if_pos hcontains]
      obtain ⟨e, he, hsame⟩ := List.any_eq_true.1 hcontains
      exact .inr ⟨base, k, rfl, e, (k, v), (List.singleton_sublist.2 he).append (.cons_cons _ (List.nil_sublist _)),
        hsame, rfl⟩
    · have hsplit : base ++ (k, v) :: included = base ++ [(k, v)] ++ included := by simp
      rw [if_neg hcontains, hsplit]
      exact ih (hbase.concat hk v (by simpa using hcontains)) hrest

end Mapping

namespace Spec

variable {m data included : Mapping} {scope : Option String} {content path : String}

theorem repeatsKeyEntries_of_parse (h : parse content path = .ok m) : Value.repeatsKeyEntries m = false := by
  rw [parse] at h
  split at h
  · cases h
  · cases h
    rfl
  · rename_i hread
    cases h
    exact Yaml.repeatsKey_of_read hread
  · cases h

/-- **A file has each key once.** -/
theorem keyed_of_parse (h : parse content path = .ok m) : m.Keyed := by
  obtain ⟨hdistinct, hkeys⟩ := Value.repeatsKeyEntries_eq_false.1 (repeatsKeyEntries_of_parse h)
  exact ⟨hdistinct, fun e he => (hkeys e he).1⟩

def inside (s : String) (k : Value) : Value :=
  match k with
  | .string key => .string (QualifiedName.child s key)
  | _ => k

theorem putInside_some (s : String) : putInside (some s) m = m.map fun e => (inside s e.1, e.2) := by
  refine List.map_congr_left fun e _ => ?_
  obtain ⟨k, v⟩ := e
  cases k <;> rfl

theorem same_inside (s : String) (k key : Value) : (inside s k).same (inside s key) = k.same key := by
  cases k <;> cases key <;> simp [inside, Value.same, QualifiedName.child]

theorem repeatsKey_inside (s : String) (k : Value) : (inside s k).repeatsKey = k.repeatsKey := by cases k <;> rfl

theorem keyed_putInside (h : m.Keyed) : (putInside scope m).Keyed := by
  cases scope with
  | none => exact h
  | some s =>
    rw [putInside_some]
    refine ⟨List.pairwise_map.2 (h.distinct.imp fun hab => ?_), List.forall_mem_map.2 fun e he => ?_⟩
    · rw [same_inside]
      exact hab
    · rw [repeatsKey_inside]
      exact h.keys e he

/-- **Included entries go last**, or the error names a key that comes twice. -/
theorem addIncluded_cases (hdata : data.Keyed) (hkeys : ∀ e ∈ included, e.1.repeatsKey = false) :
    (addIncluded data included = .ok (data ++ included) ∧ Mapping.Keyed (data ++ included)) ∨
      ∃ k, addIncluded data included = .error (.duplicateEntry (keyName k)) ∧ Mapping.Twice (data ++ included) k := by
  rw [addIncluded]
  rcases Mapping.addNew_cases hdata hkeys with ⟨hadd, hkeyed⟩ | ⟨m, k, hadd, htwice⟩
  · exact .inl ⟨by rw [hadd], hkeyed⟩
  · exact .inr ⟨k, by rw [hadd], htwice⟩

/-! ## Whole specifications -/

theorem values_putInside (h : ∀ e ∈ m, e.2.repeatsKey = false) : ∀ e ∈ putInside scope m, e.2.repeatsKey = false := by
  cases scope with
  | none => exact h
  | some s =>
    rw [putInside_some]
    exact List.forall_mem_map.2 fun e he => h e he

theorem repeatsKeyEntries_iff_keyed : Value.repeatsKeyEntries m = false ↔
    m.Keyed ∧ ∀ e ∈ m, e.2.repeatsKey = false := by
  rw [Value.repeatsKeyEntries_eq_false]
  exact ⟨fun h => ⟨⟨h.1, fun e he => (h.2 e he).1⟩, fun e he => (h.2 e he).2⟩,
    fun h => ⟨h.1.distinct, fun e he => ⟨h.1.keys e he, h.2 e he⟩⟩⟩

theorem repeatsKeyEntries_of_addIncludes {files : Files} {load : String → Option String → Except IncludeError Mapping}
    {searched : List String} {statements : List String}
    (hload : ∀ source scope m, load source scope = .ok m → Value.repeatsKeyEntries m = false)
    (hdata : Value.repeatsKeyEntries data = false) (h : addIncludes files load searched scope data statements = .ok m) :
    Value.repeatsKeyEntries m = false := by
  induction statements generalizing data with
  | nil =>
    cases h
    exact hdata
  | cons statement statements ih =>
    obtain ⟨i, -, h⟩ := exists_of_bind_eq_ok h
    obtain ⟨target, -, h⟩ := exists_of_bind_eq_ok h
    obtain ⟨included, hincluded, h⟩ := exists_of_bind_eq_ok h
    obtain ⟨both, hboth, h⟩ := exists_of_bind_eq_ok h
    obtain ⟨hkeyed, hvalues⟩ := repeatsKeyEntries_iff_keyed.1 hdata
    obtain ⟨hkeyed', hvalues'⟩ := repeatsKeyEntries_iff_keyed.1 (hload _ _ _ hincluded)
    refine ih (repeatsKeyEntries_iff_keyed.2 ?_) h
    rcases addIncluded_cases hkeyed hkeyed'.keys with ⟨hok, hnew⟩ | ⟨k, herror, -⟩
    · rw [hok] at hboth
      cases hboth
      exact ⟨hnew, List.forall_mem_append.2 ⟨hvalues, hvalues'⟩⟩
    · rw [herror] at hboth
      cases hboth

theorem repeatsKeyEntries_of_loadWithin {files : Files} {dirs : List String} {depth : Nat}
    {stack : List Place} {source : String} (h : loadWithin files dirs depth stack source scope = .ok data) :
    Value.repeatsKeyEntries data = false := by
  induction depth generalizing stack source scope data with
  | zero => cases h
  | succ depth ih =>
    rw [loadWithin] at h
    split at h
    · cases h
    · split at h
      · cases h
      · split at h
        · obtain ⟨own, hown, h⟩ := exists_of_bind_eq_ok h
          obtain ⟨hkeyed, hvalues⟩ := repeatsKeyEntries_iff_keyed.1 (repeatsKeyEntries_of_parse hown)
          exact repeatsKeyEntries_of_addIncludes (fun source scope m hm => ih hm)
            (repeatsKeyEntries_iff_keyed.2 ⟨keyed_putInside hkeyed, values_putInside hvalues⟩) h
        · cases h

/-- **A specification repeats no key**, at any depth. -/
theorem repeatsKeyEntries_of_load {files : Files} {dirs : List String} {source : String} {spec : Spec}
    (h : Spec.load files dirs source scope = .ok spec) : Value.repeatsKeyEntries spec.data = false := by
  obtain ⟨data, hdata, h⟩ := exists_of_bind_eq_ok h
  cases h
  exact repeatsKeyEntries_of_loadWithin hdata

end Spec
end SignalCatalog
