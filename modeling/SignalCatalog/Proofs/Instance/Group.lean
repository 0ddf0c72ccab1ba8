import Mathlib.Data.Nat.Digits.Defs
import SignalCatalog.Instance.Template
import SignalCatalog.Proofs.Steps
import SignalCatalog.Proofs.Text.Pieces
/-!
# Groups of a template

A group is a range where it is two numerals with a comma between them, and else a list of words.  A range gives all
integers from its first to its last, and a list its words without the blanks and the quotes around them.
-/
namespace SignalCatalog
namespace Template

variable {cs core group entry text inner inner' w digits : List Char} {n first last : Int} {values : List (List Char)}

/-! ## Ranges -/

/-- The number that decimal digits stand for, the last of them counting ones. -/
def magnitude (digits : List Char) : Nat := Nat.ofDigits 10 (digits.reverse.map fun c => c.toNat - '0'.toNat)

/-- **A decimal numeral**, digits after an optional minus, and its number. -/
inductive Numeral : List Char → Int → Prop
  | unsigned {digits : List Char} : digits ≠ [] → (∀ c ∈ digits, c.isDigit = true) → Numeral digits (magnitude digits)
  | negative {digits : List Char} : digits ≠ [] → (∀ c ∈ digits, c.isDigit = true) →
      Numeral ('-' :: digits) (-(magnitude digits : Int))

/-- **A bound of a range**: a numeral of sixty-four bits, with blanks or tabs around it. -/
def IsBound (cs : List Char) (n : Int) : Prop :=
  ∃ core, Text.Trimmed isRangeBlank core cs ∧ Numeral core n ∧ -(2 ^ 63) ≤ n ∧ n < 2 ^ 63

/-- **A range**: two bounds with a comma between them. -/
def IsRange (group : List Char) (first last : Int) : Prop :=
  ∃ a b, group = a ++ ',' :: b ∧ IsBound a first ∧ IsBound b last

theorem foldl_eq_magnitude (digits : List Char) :
    digits.foldl (fun acc c => 10 * acc + (c.toNat - '0'.toNat)) 0 = magnitude digits := by
  induction digits using List.reverseRecOn with
  | nil => rfl
  | append_singleton digits c ih =>
    rw [List.foldl_concat, ih, magnitude, magnitude, List.reverse_concat, List.map_cons, Nat.ofDigits_cons]
    exact Nat.add_comm _ _

def signed : List Char → Bool × List Char
  | '-' :: digits => (true, digits)
  | digits => (false, digits)

theorem numeral_iff : Numeral core n ↔ (signed core).2 ≠ [] ∧ (∀ c ∈ (signed core).2, c.isDigit = true) ∧
    n = if (signed core).1 then -(magnitude (signed core).2 : Int) else magnitude (signed core).2 := by
  constructor
  · rintro (⟨hne, hall⟩ | ⟨hne, hall⟩)
    · have hsigned : signed core = (false, core) := by
        unfold signed
        split
        · exact absurd (hall '-' List.mem_cons_self) (by decide)
        · rfl
      rw [hsigned]
      exact ⟨hne, hall, rfl⟩
    · exact ⟨hne, hall, rfl⟩
  · unfold signed
    split
    · rintro ⟨hne, hall, rfl⟩
      exact .negative hne hall
    · rintro ⟨hne, hall, rfl⟩
      exact .unsigned hne hall

theorem isBound_iff : IsBound cs n ↔ Numeral (trimRange cs) n ∧ -(2 ^ 63) ≤ n ∧ n < 2 ^ 63 := by
  constructor
  · rintro ⟨core, htrim, h⟩
    rw [trimRange, ← List.rdropWhile, Text.rdropWhile_dropWhile_eq_iff.2 htrim]
    exact h
  · exact fun h => ⟨_, Text.rdropWhile_dropWhile_eq_iff.1 rfl, h⟩

theorem bound?_eq_some_iff : bound? cs = some n ↔ IsBound cs n := by
  rw [isBound_iff, numeral_iff, bound?]
  split
  rename_i negative digits hparts
  rw [show signed (trimRange cs) = (negative, digits) from hparts]
  dsimp only
  rw [foldl_eq_magnitude]
  have hpow : ((Nat.pow 2 63 : Nat) : Int) = 2 ^ 63 := by norm_num
  rw [hpow]
  generalize (if negative = true then -(magnitude digits : Int) else magnitude digits) = value
  by_cases hdigits : digits ≠ [] ∧ ∀ c ∈ digits, c.isDigit = true
  · rw [if_neg (by simpa using hdigits), Option.ite_none_right_eq_some]
    constructor
    · rintro ⟨hrange, heq⟩
      cases heq
      exact ⟨⟨hdigits.1, hdigits.2, rfl⟩, hrange⟩
    · rintro ⟨⟨-, -, rfl⟩, hrange⟩
      exact ⟨hrange, rfl⟩
  · rw [if_pos (by simpa [or_iff_not_imp_left] using hdigits)]
    exact iff_of_false (by simp) fun h => hdigits ⟨h.1.1, h.1.2.1⟩

theorem not_mem_of_isBound (h : IsBound cs n) : ',' ∉ cs := by
  obtain ⟨core, ⟨⟨before, after, rfl, hbefore, hafter⟩, -, -⟩, hnum, -⟩ := h
  have hcore : ',' ∉ core := by
    cases hnum with
    | unsigned _ hall => exact fun hc => absurd (hall _ hc) (by decide)
    | negative _ hall =>
      rintro (_ | ⟨_, hc⟩)
      exact absurd (hall _ hc) (by decide)
  simp only [List.mem_append, not_or]
  exact ⟨⟨fun hc => absurd (hbefore _ hc) (by decide), hcore⟩, fun hc => absurd (hafter _ hc) (by decide)⟩

/-- **A range is read** where there is one.  No bound has a comma, so the one between them is the only one. -/
theorem range?_eq_some_iff : range? group = some (first, last) ↔ IsRange group first last := by
  rw [range?]
  constructor
  · intro h
    split at h
    · rename_i a b hsplit
      obtain ⟨x, hx, h⟩ := Option.bind_eq_some_iff.1 h
      obtain ⟨y, hy, h⟩ := Option.bind_eq_some_iff.1 h
      cases h
      exact ⟨a, b, (Text.splitOn_eq_pair_iff.1 hsplit).1, bound?_eq_some_iff.1 hx, bound?_eq_some_iff.1 hy⟩
    · cases h
  · rintro ⟨a, b, rfl, ha, hb⟩
    rw [Text.splitOn_eq_pair_iff.2 ⟨rfl, not_mem_of_isBound ha, not_mem_of_isBound hb⟩]
    simp [bound?_eq_some_iff.2 ha, bound?_eq_some_iff.2 hb]

theorem integersFrom_eq (first : Int) (count : Nat) :
    integersFrom first count = (List.range count).map fun i : Nat => first + i := by
  induction count generalizing first with
  | zero => rfl
  | succ count ih =>
    rw [integersFrom, ih, List.range_succ_eq_map, List.map_cons, List.map_map]
    refine congrArg₂ _ (by simp) (List.map_congr_left fun i _ => ?_)
    rw [Function.comp_apply]
    omega

/-! ## Words -/

def Quotes (inner text : List Char) : Prop := ∃ q, (q = '\'' ∨ q = '"') ∧ text = q :: (inner ++ [q])

/-- **A text without one pair of quotes**, if it has one. -/
def Unquoted (w text : List Char) : Prop := Quotes w text ∨ (∀ inner, ¬Quotes inner text) ∧ w = text

/-- **The word of an entry**: the entry without the blanks around it and without quotes, which must not be empty. -/
def IsWord (entry w : List Char) : Prop := ∃ core, Text.Trimmed Text.isBlank core entry ∧ Unquoted w core ∧ w ≠ []

theorem Quotes.inj (h : Quotes inner text) (h' : Quotes inner' text) : inner = inner' := by
  obtain ⟨q, -, rfl⟩ := h
  obtain ⟨q', -, heq⟩ := h'
  obtain ⟨rfl, heq⟩ := List.cons.inj heq
  exact List.append_inj_left' heq rfl

theorem unquote_eq_iff : unquote text = w ↔ Unquoted w text := by
  by_cases hquotes : ∃ inner, Quotes inner text
  · obtain ⟨inner, hinner⟩ := hquotes
    have hunquote : unquote text = inner := by
      obtain ⟨q, hq, rfl⟩ := hinner
      simp [unquote, hq]
    rw [hunquote]
    constructor
    · rintro rfl
      exact .inl hinner
    · rintro (hw | ⟨hnone, -⟩)
      · exact hinner.inj hw
      · exact absurd hinner (hnone inner)
  · have hunquote : unquote text = text := by
      unfold unquote
      split
      · rename_i q r
        split
        · rename_i hq
          obtain ⟨inner, rfl⟩ := List.getLast?_eq_some_iff.1 hq.2
          exact absurd ⟨inner, q, hq.1, rfl⟩ hquotes
        · rfl
      · rfl
    rw [hunquote, Unquoted, eq_comm (a := text)]
    exact ⟨fun hw => .inr ⟨fun inner hinner => hquotes ⟨inner, hinner⟩, hw⟩,
      fun h => h.elim (fun hw => absurd ⟨w, hw⟩ hquotes) And.right⟩

theorem word_eq_ok_iff : word entry = .ok w ↔ IsWord entry w := by
  have hiff : IsWord entry w ↔ unquote (Text.trim entry) = w ∧ w ≠ [] := by
    rw [unquote_eq_iff]
    constructor
    · rintro ⟨core, htrim, h⟩
      rw [Text.trim_eq_iff.2 htrim]
      exact h
    · exact fun h => ⟨_, Text.trim_eq_iff.1 rfl, h⟩
  rw [hiff, word]
  split
  · rename_i hempty
    refine iff_of_false (by simp) ?_
    rintro ⟨rfl, hne⟩
    exact hne (List.isEmpty_iff.1 hempty)
  · rename_i hne
    rw [Except.ok.injEq, iff_self_and]
    rintro rfl
    simpa using hne

/-! ## Members -/

def integers (first last : Int) : List Int := (List.range (last + 1 - first).toNat).map fun i : Nat => first + i

/-- **The values that a group gives.** -/
inductive Yields (group : List Char) : List (List Char) → Prop
  | range {first last : Int} : IsRange group first last → first ≤ last →
      Yields group ((integers first last).map fun n => (toString n).toList)
  | words {values : List (List Char)} : (∀ first last, ¬IsRange group first last) →
      List.Forall₂ IsWord (group.splitOn ',') values → Yields group values

theorem range?_eq_none_iff : range? group = none ↔ ∀ first last, ¬IsRange group first last := by
  simp only [Option.eq_none_iff_forall_ne_some, ne_eq, Prod.forall, range?_eq_some_iff]

theorem members_of_range (h : IsRange group first last) : members group =
    if last < first then .error (.emptyRange first last)
    else .ok ((integers first last).map fun n => (toString n).toList) := by
  rw [members, range?_eq_some_iff.2 h]
  dsimp only
  rw [integersFrom_eq, integers, show last - first + 1 = last + 1 - first by omega]

theorem members_of_not_range (h : ∀ first last, ¬IsRange group first last) :
    members group = (group.splitOn ',').mapM word := by
  rw [members, range?_eq_none_iff.2 h, Text.splitOn_eq]

/-- **The members of a group** are the values it gives. -/
theorem members_eq_ok_iff : members group = .ok values ↔ Yields group values := by
  by_cases hrange : ∃ first last, IsRange group first last
  · obtain ⟨first, last, hrange⟩ := hrange
    rw [members_of_range hrange]
    constructor
    · intro h
      split at h
      · cases h
      · rename_i hle
        cases h
        exact .range hrange (by omega)
    · rintro (⟨hrange', hle⟩ | ⟨hnone, -⟩)
      · cases (range?_eq_some_iff.2 hrange).symm.trans (range?_eq_some_iff.2 hrange')
        rw [if_neg (by omega)]
      · exact absurd hrange (hnone first last)
  · have hnone : ∀ first last, ¬IsRange group first last := fun first last h => hrange ⟨first, last, h⟩
    rw [members_of_not_range hnone, mapM_eq_ok_iff]
    simp only [word_eq_ok_iff]
    constructor
    · exact .words hnone
    · rintro (⟨hrange, -⟩ | ⟨-, hwords⟩)
      · exact absurd hrange (hnone _ _)
      · exact hwords

/-- **Groups that can be expanded**: ranges that do not end before they begin, and else lists without an empty entry. -/
def Admitted (group : List Char) : Prop :=
  (∃ first last, IsRange group first last ∧ first ≤ last) ∨
    (∀ first last, ¬IsRange group first last) ∧ ∀ entry ∈ group.splitOn ',', ∃ w, IsWord entry w

theorem exists_yields_iff : (∃ values, Yields group values) ↔ Admitted group := by
  constructor
  · rintro ⟨values, ⟨hrange, hle⟩ | ⟨hnone, hwords⟩⟩
    · exact .inl ⟨_, _, hrange, hle⟩
    · refine .inr ⟨hnone, fun entry hentry => ?_⟩
      obtain ⟨w, -, hw⟩ := exists_of_mem_left hwords hentry
      exact ⟨w, hw⟩
  · rintro (⟨first, last, hrange, hle⟩ | ⟨hnone, hwords⟩)
    · exact ⟨_, .range hrange hle⟩
    · obtain ⟨values, hvalues⟩ := exists_forall₂ hwords
      exact ⟨values, .words hnone hvalues⟩

theorem Yields.ne_nil (h : Yields group values) : values ≠ [] := by
  cases h with
  | range _ hle =>
    simp [integers]
    omega
  | words _ hwords =>
    rintro rfl
    rw [List.forall₂_nil_right_iff, ← Text.splitOn_eq] at hwords
    exact Text.splitOn_ne_nil _ _ hwords

end Template
end SignalCatalog
