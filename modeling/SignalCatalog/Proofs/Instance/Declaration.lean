import SignalCatalog.Instance.Level
import SignalCatalog.Proofs.Steps
/-!
# Declarations read back

The value that declares levels declares the same levels again, with one exception: levels of one plain name each are
written like the plain names of one level.
-/
namespace SignalCatalog
namespace Level

/-- **The levels that a written declaration is read as.** -/
def redeclared (levels : List Level) : List Level :=
  match (levels.map toValue).mapM plainName? with
  | some (name :: names) => [⟨name :: names⟩]
  | _ => levels

theorem mapM_nameOf (templates : List String) : (templates.map Value.string).mapM nameOf = .ok templates := by
  induction templates with
  | nil => rfl
  | cons t templates ih =>
    rw [List.map_cons, List.mapM_cons, ih]
    rfl

theorem ofValue_toValue (l : Level) : ofValue l.toValue = .ok l := by
  obtain ⟨templates⟩ := l
  rw [toValue]
  split
  · rename_i only hone
    cases hone
    rfl
  · rw [ofValue, mapM_nameOf]
    rfl

theorem mapM_ofValue (levels : List Level) : (levels.map toValue).mapM ofValue = .ok levels := by
  induction levels with
  | nil => rfl
  | cons l levels ih =>
    rw [List.map_cons, List.mapM_cons, ofValue_toValue, ih]
    rfl

theorem mapM_plainName? {templates : List String} (h : ∀ t ∈ templates, hasBracket t = false) :
    (templates.map Value.string).mapM plainName? = some templates := by
  induction templates with
  | nil => rfl
  | cons t templates ih =>
    obtain ⟨ht, hrest⟩ := List.forall_mem_cons.1 h
    rw [List.map_cons, List.mapM_cons, ih hrest, plainName?, ht]
    rfl

theorem plainName?_toValue {l : Level} {name : String} : plainName? l.toValue = some name ↔ l.templates = [name] ∧
    hasBracket name = false := by
  obtain ⟨templates⟩ := l
  rw [toValue]
  split
  · rename_i only hone
    cases hone
    rw [plainName?]
    by_cases hbracket : hasBracket only = true
    · simp only [hbracket, if_true, reduceCtorEq, List.cons.injEq, and_true, false_iff, not_and, Bool.not_eq_false]
      exact fun heq => heq ▸ hbracket
    · simp only [hbracket, if_false, Option.some_inj, List.cons.injEq, and_true, Bool.false_eq_true, iff_self_and]
      exact fun heq => heq ▸ by simpa using hbracket
  · rename_i hmany
    simp only [plainName?, reduceCtorEq, false_iff, not_and]
    exact fun hone => absurd hone (hmany name)

theorem redeclared_nil : redeclared [] = [] := rfl

theorem redeclared_singleton (l : Level) : redeclared [l] = [l] := by
  rw [redeclared, List.map_singleton, List.mapM_cons, List.mapM_nil]
  cases hl : plainName? l.toValue with
  | none => rfl
  | some name =>
    obtain ⟨templates⟩ := l
    obtain ⟨rfl, -⟩ := plainName?_toValue.1 hl
    rfl

theorem mapM_plainName?_eq_none {levels : List Level} : (levels.map toValue).mapM plainName? = none ↔
    ∃ l ∈ levels, plainName? l.toValue = none := by
  induction levels with
  | nil => simp
  | cons l levels ih =>
    rw [List.map_cons, List.mapM_cons]
    cases hl : plainName? l.toValue with
    | none => simp [hl]
    | some name => cases hrest : (levels.map toValue).mapM plainName? <;> simp_all

theorem isEmpty_redeclared (levels : List Level) : (redeclared levels).isEmpty = levels.isEmpty := by
  cases levels with
  | nil => rfl
  | cons l levels =>
    rw [redeclared]
    split <;> rfl

/-- **Levels are kept** but for two or more that are all of one plain name. -/
theorem redeclared_eq_self {levels : List Level} : redeclared levels = levels ↔
    levels.length ≤ 1 ∨ ∃ l ∈ levels, plainName? l.toValue = none := by
  match levels with
  | [] => simp [redeclared_nil]
  | [l] => simp [redeclared_singleton]
  | l :: l' :: levels =>
    rw [redeclared, ← mapM_plainName?_eq_none]
    cases hall : (List.map toValue (l :: l' :: levels)).mapM plainName? with
    | none => simp
    | some names => cases names <;> simp_all [List.mapM_cons, Option.bind_eq_some_iff]

theorem parse_list (levels : List Level) : parse (.list (levels.map toValue)) = .ok (redeclared levels) := by
  rw [parse, redeclared]
  cases hall : (levels.map toValue).mapM plainName? with
  | none => exact mapM_ofValue levels
  | some names =>
    cases names with
    | cons name names => rfl
    | nil =>
      cases levels with
      | nil => rfl
      | cons l levels => simp [List.mapM_cons, Option.bind_eq_some_iff] at hall

theorem parse_declaration (levels : List Level) : parse (declaration levels) = .ok (redeclared levels) := by
  unfold declaration
  split
  · rename_i only
    split
    · rename_i hplain
      simp only [Bool.and_eq_true, decide_eq_true_eq, List.all_eq_true, Bool.not_eq_true'] at hplain
      obtain ⟨hlen, hplain⟩ := hplain
      obtain ⟨templates⟩ := only
      have hmany : toValue ⟨templates⟩ = .list (templates.map .string) := by
        rw [toValue]
        split
        · rename_i hone
          cases hone
          simp at hlen
        · rfl
      rw [redeclared_singleton, hmany, parse, mapM_plainName? hplain]
      cases templates with
      | nil => simp at hlen
      | cons t templates => rfl
    · exact parse_list [only]
  · exact parse_list levels

theorem mapM_plainName?_eq_some {levels : List Level} {names : List String}
    (h : (levels.map toValue).mapM plainName? = some names) :
    levels = names.map (fun name => ⟨[name]⟩) ∧ ∀ name ∈ names, hasBracket name = false := by
  induction levels generalizing names with
  | nil =>
    cases h
    exact ⟨rfl, by simp⟩
  | cons l levels ih =>
    rw [List.map_cons, List.mapM_cons, Option.bind_eq_bind, Option.bind_eq_some_iff] at h
    obtain ⟨name, hname, h⟩ := h
    obtain ⟨rest, hrest, h⟩ := Option.bind_eq_some_iff.1 h
    cases h
    obtain ⟨htemplates, hbracket⟩ := plainName?_toValue.1 hname
    obtain ⟨hlevels, hall⟩ := ih hrest
    obtain ⟨templates⟩ := l
    cases htemplates
    exact ⟨by rw [hlevels]; rfl, List.forall_mem_cons.2 ⟨hbracket, hall⟩⟩

theorem declaration_redeclared (levels : List Level) : declaration (redeclared levels) = declaration levels := by
  rw [redeclared]
  split
  · rename_i name names hall
    obtain ⟨rfl, hbracket⟩ := mapM_plainName?_eq_some hall
    cases names with
    | nil => rfl
    | cons second names =>
      have hplain : (1 < (name :: second :: names).length && (name :: second :: names).all fun t =>
          !hasBracket t) = true := by
        rw [Bool.and_eq_true, List.all_eq_true]
        exact ⟨by simp, fun t ht => by simp [hbracket t ht]⟩
      change (if (1 < (name :: second :: names).length && _) = true then _ else _) = _
      rw [if_pos hplain]
      simp [declaration, toValue]
  · rfl

/-- **Two or more levels, each of one plain name.** -/
def Lone (levels : List Level) : Prop :=
  2 ≤ levels.length ∧ ∀ l ∈ levels, ∃ name, l.templates = [name] ∧ hasBracket name = false

theorem lone_iff {levels : List Level} : Lone levels ↔
    ¬(levels.length ≤ 1 ∨ ∃ l ∈ levels, plainName? l.toValue = none) := by
  simp only [Lone, not_or, Nat.not_le, not_exists, not_and, ← plainName?_toValue, ← Option.isSome_iff_exists,
    ← Option.isSome_iff_ne_none]
  rfl

theorem redeclared_eq_self_iff_not_lone {levels : List Level} : redeclared levels = levels ↔ ¬Lone levels := by
  rw [lone_iff, not_not, redeclared_eq_self]

theorem redeclared_of_lone {levels : List Level} (h : Lone levels) :
    redeclared levels = [⟨levels.flatMap templates⟩] := by
  obtain ⟨hlen, hlone⟩ := h
  rw [redeclared]
  cases hall : (levels.map toValue).mapM plainName? with
  | none =>
    obtain ⟨l, hl, hnone⟩ := mapM_plainName?_eq_none.1 hall
    obtain ⟨name, hname⟩ := hlone l hl
    rw [plainName?_toValue.2 hname] at hnone
    cases hnone
  | some names =>
    obtain ⟨rfl, -⟩ := mapM_plainName?_eq_some hall
    cases names with
    | nil => simp at hlen
    | cons name names => simp [List.flatMap_map]

theorem list_of_ofValue {item : Value} {name : String} (h : ofValue item = .ok ⟨[name]⟩)
    (hbracket : hasBracket name = false) (hnone : plainName? item = none) : ∃ only, item = .list [only] := by
  cases item with
  | string s =>
    cases h
    rw [plainName?, hbracket] at hnone
    cases hnone
  | list names =>
    obtain ⟨templates, htemplates, heq⟩ := exists_of_bind_eq_ok h
    cases heq
    cases names with
    | nil => cases htemplates
    | cons only names =>
      rw [List.mapM_cons] at htemplates
      obtain ⟨first, -, htemplates⟩ := exists_of_bind_eq_ok htemplates
      obtain ⟨rest, hrest, htemplates⟩ := exists_of_bind_eq_ok htemplates
      cases htemplates
      cases names with
      | nil => exact ⟨only, rfl⟩
      | cons second names =>
        rw [List.mapM_cons] at hrest
        obtain ⟨second, -, hrest⟩ := exists_of_bind_eq_ok hrest
        obtain ⟨rest, -, hrest⟩ := exists_of_bind_eq_ok hrest
        cases hrest
  | _ => cases h

theorem list_of_lone {v : Value} {levels : List Level} (h : parse v = .ok levels) (hlone : Lone levels) :
    ∃ items only, v = .list items ∧ .list [only] ∈ items := by
  obtain ⟨hlen, hlone⟩ := hlone
  cases v with
  | list items =>
    rw [parse] at h
    split at h
    · cases h
      simp at hlen
    · cases h
      simp at hlen
    · rename_i hplain
      obtain ⟨item, hitem, hnone⟩ : ∃ item ∈ items, plainName? item = none := by
        by_contra hsome
        push Not at hsome
        obtain ⟨names, hnames⟩ := exists_mapM_eq_some hsome
        rw [hnames] at hplain
        cases hplain
      obtain ⟨l, hl, hof⟩ := exists_of_mem_left (mapM_eq_ok_iff.1 h) hitem
      obtain ⟨name, htemplates, hbracket⟩ := hlone l hl
      obtain ⟨only, rfl⟩ := list_of_ofValue (by rw [hof, ← htemplates]) hbracket hnone
      exact ⟨items, only, rfl, hitem⟩
  | null | string _ =>
    cases h
    simp at hlen
  | _ => cases h

/-- **Levels that were read are read again as they are written**, but for two or more of one plain name each: these are
read as the names of one level.  Such levels are declared by a list with a list of one name in it. -/
theorem parse_again {v : Value} {levels : List Level} (h : parse v = .ok levels) :
    ∃ again, parse (declaration levels) = .ok again ∧ (again = levels ↔ ¬Lone levels) ∧
      (Lone levels → again = [⟨levels.flatMap templates⟩] ∧ ∃ items only, v = .list items ∧ .list [only] ∈ items) :=
  ⟨redeclared levels, parse_declaration levels, redeclared_eq_self_iff_not_lone,
    fun hlone => ⟨redeclared_of_lone hlone, list_of_lone h hlone⟩⟩

/-- A template with a range beside two plain names. -/
theorem parse_rows : parse (.list [.string "Row[1,2]", .list [.string "Left", .string "Right"]]) =
      .ok [⟨["Row[1,2]"]⟩, ⟨["Left", "Right"]⟩] ∧
    ∃ again, parse (declaration [⟨["Row[1,2]"]⟩, ⟨["Left", "Right"]⟩]) = .ok again ∧
      (again = [⟨["Row[1,2]"]⟩, ⟨["Left", "Right"]⟩] ↔ ¬Lone [⟨["Row[1,2]"]⟩, ⟨["Left", "Right"]⟩]) ∧
      (Lone [⟨["Row[1,2]"]⟩, ⟨["Left", "Right"]⟩] →
        again = [⟨[⟨["Row[1,2]"]⟩, ⟨["Left", "Right"]⟩].flatMap templates⟩] ∧ ∃ items only,
          Value.list [.string "Row[1,2]", .list [.string "Left", .string "Right"]] = .list items ∧
          .list [only] ∈ items) :=
  have hrows : parse (.list [.string "Row[1,2]", .list [.string "Left", .string "Right"]]) = .ok [⟨["Row[1,2]"]⟩,
      ⟨["Left", "Right"]⟩] := by
    cbv
  ⟨hrows, parse_again hrows⟩

/-- Two levels become one. -/
theorem parse_joined : parse (.list [.list [.string "Left"], .list [.string "Right"]]) = .ok [⟨["Left"]⟩, ⟨["Right"]⟩] ∧
    parse (declaration [⟨["Left"]⟩, ⟨["Right"]⟩]) = .ok [⟨["Left", "Right"]⟩] ∧
    ¬parse (declaration [⟨["Left"]⟩, ⟨["Right"]⟩]) = .ok [⟨["Left"]⟩, ⟨["Right"]⟩] := by
  refine ⟨by cbv, by cbv, ?_⟩
  rw [parse_declaration]
  decide

end Level
end SignalCatalog
