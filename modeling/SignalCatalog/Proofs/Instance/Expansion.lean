import Mathlib.Data.List.Forall2
import SignalCatalog.Instance.Level
import SignalCatalog.Proofs.Instance.Group
/-!
# Names of a template

A template names something just when it is text without brackets around groups that give values.  Its names are then
that text with a value for each group, in the order of the values of the first group, and for one of these in that of
the next.
-/
namespace SignalCatalog
namespace Template

variable {cs lead group behind rest : List Char} {counts : List Nat}

/-! ## Brackets -/

theorem expandChars_plain (h : '[' ∉ cs) :
    expandChars cs = if hasClosing cs then .error (invalid cs .strayClosing) else .ok [cs] := by
  rw [expandChars, if_pos (by simpa using h)]

theorem expandChars_unterminated (hlead : '[' ∉ lead) (hbehind : ']' ∉ behind) :
    expandChars (lead ++ '[' :: behind) = .error (invalid (lead ++ '[' :: behind) .unterminated) := by
  have hnone : (((lead ++ '[' :: behind).dropWhile (· != '[')).drop 1).dropWhile (· != ']') = [] := by
    rw [Text.dropWhile_bne hlead, List.drop_one, List.tail_cons, Text.dropWhile_bne_of_not_mem hbehind]
  rw [expandChars, if_neg (by simp)]
  dsimp only
  split
  · rfl
  · rename_i heq
    cases hnone.symm.trans heq

theorem expandChars_group (hlead : '[' ∉ lead) (hgroup : ']' ∉ group)
    (hcs : cs = lead ++ '[' :: (group ++ ']' :: rest)) :
    expandChars cs =
    if hasClosing lead then .error (invalid cs .strayClosing)
    else if group.contains '[' then .error (invalid cs .nested)
    else do
      let ms ← (members group).mapError (invalid cs)
      let tails ← (expandChars rest).mapError fun e => invalid cs e.fault
      return ms.flatMap fun m => tails.map fun t => lead ++ m ++ t := by
  have hbehind : (cs.dropWhile (· != '[')).drop 1 = group ++ ']' :: rest := by
    rw [hcs, Text.dropWhile_bne hlead, List.drop_one, List.tail_cons]
  have htake : cs.takeWhile (· != '[') = lead := by rw [hcs, Text.takeWhile_bne hlead]
  rw [expandChars, if_neg (by simp [hcs])]
  dsimp only
  split
  · rename_i heq
    rw [hbehind, Text.dropWhile_bne hgroup] at heq
    cases heq
  · rename_i heq
    rw [hbehind, Text.dropWhile_bne hgroup] at heq
    cases heq
    rw [hbehind, htake, Text.takeWhile_bne hgroup]

/-- **An error names the template**, whichever group is at fault. -/
theorem exists_fault_of_expandChars {e : InvalidEntry} (h : expandChars cs = .error e) :
    ∃ fault, e = invalid cs fault := by
  rw [expandChars] at h
  split at h
  · split at h
    · cases h
      exact ⟨_, rfl⟩
    · cases h
  · dsimp only at h
    split at h
    · cases h
      exact ⟨_, rfl⟩
    · split at h
      · cases h
        exact ⟨_, rfl⟩
      split at h
      · cases h
        exact ⟨_, rfl⟩
      · rcases bind_eq_error_iff.1 h with hmembers | ⟨ms, -, h⟩
        · obtain ⟨fault, -, rfl⟩ := mapError_eq_error_iff.1 hmembers
          exact ⟨fault, rfl⟩
        · rcases bind_eq_error_iff.1 h with htails | ⟨tails, -, h⟩
          · obtain ⟨e', -, rfl⟩ := mapError_eq_error_iff.1 htails
            exact ⟨e'.fault, rfl⟩
          · cases h

/-! ## Choices -/

def choices : List Nat → List (List Nat)
  | [] => [[]]
  | count :: counts => (List.range count).flatMap fun i => (choices counts).map (i :: ·)

/-- **All choices of a position in each of several lists**, each once: one comes before another when its position is
smaller at the first list where they differ. -/
structure Enumerates (counts : List Nat) (positions : List (List Nat)) : Prop where
  ordered : positions.Pairwise (· < ·)
  complete : ∀ is, is ∈ positions ↔ List.Forall₂ (· < ·) is counts

theorem enumerates_choices (counts : List Nat) : Enumerates counts (choices counts) := by
  induction counts with
  | nil => exact ⟨List.pairwise_singleton _ _, fun is => by simp [choices]⟩
  | cons count counts ih =>
    constructor
    · refine List.pairwise_flatMap.2 ⟨fun i _ => ?_, List.pairwise_lt_range.imp fun hlt x hx y hy => ?_⟩
      · exact List.pairwise_map.2 (ih.ordered.imp fun hlt => List.cons_lt_cons_iff.2 (.inr ⟨rfl, hlt⟩))
      · obtain ⟨is, -, rfl⟩ := List.mem_map.1 hx
        obtain ⟨js, -, rfl⟩ := List.mem_map.1 hy
        exact List.cons_lt_cons_iff.2 (.inl hlt)
    · intro is
      simp only [choices, List.mem_flatMap, List.mem_range, List.mem_map, ih.complete, List.forall₂_cons_right_iff]
      constructor
      · rintro ⟨i, hi, js, hjs, rfl⟩
        exact ⟨i, js, hi, hjs, rfl⟩
      · rintro ⟨i, js, hi, hjs, rfl⟩
        exact ⟨i, hi, js, hjs, rfl⟩

theorem Enumerates.eq {positions positions' : List (List Nat)} (h : Enumerates counts positions)
    (h' : Enumerates counts positions') :
    positions = positions' := by
  have hnodup {l : List (List Nat)} (hl : l.Pairwise (· < ·)) : l.Nodup := by
    refine hl.imp fun {a b} hlt heq => ?_
    rw [heq] at hlt
    exact List.lt_irrefl b hlt
  refine List.Perm.eq_of_pairwise (fun a b _ _ hab hba => absurd hba (List.lt_asymm hab)) h.ordered h'.ordered ?_
  exact (List.perm_ext_iff_of_nodup (hnodup h.ordered) (hnodup h'.ordered)).2 fun is => by rw [h.complete, h'.complete]

def chosen (is : List Nat) (values : List (List (List Char))) : List (List Char) :=
  List.zipWith (fun i vs => vs.getD i []) is values

/-! ## Parts -/

/-- **A template taken apart**: its groups, each with the text before it, and the text behind the last. -/
structure Parts where
  groups : List (List Char × List Char)
  rest : List Char

def NoBracket (cs : List Char) : Prop := '[' ∉ cs ∧ ']' ∉ cs

namespace Parts

variable {p : Parts} {values : List (List (List Char))}

def text (p : Parts) : List Char := p.groups.flatMap (fun g => g.1 ++ '[' :: (g.2 ++ [']'])) ++ p.rest

def Plain (p : Parts) : Prop := (∀ g ∈ p.groups, NoBracket g.1 ∧ NoBracket g.2) ∧ NoBracket p.rest

def Give (p : Parts) (values : List (List (List Char))) : Prop :=
  List.Forall₂ (fun g vs => Yields g.2 vs) p.groups values

/-- **The text with values for its groups.** -/
def fill (p : Parts) (vs : List (List Char)) : List Char :=
  (List.zipWith (fun g v => g.1 ++ v) p.groups vs).flatten ++ p.rest

def names (p : Parts) (values : List (List (List Char))) : List (List Char) :=
  (choices (values.map List.length)).map fun is => p.fill (chosen is values)

theorem text_cons (g : List Char × List Char) (groups : List (List Char × List Char)) (rest : List Char) :
    text ⟨g :: groups, rest⟩ = g.1 ++ '[' :: (g.2 ++ ']' :: text ⟨groups, rest⟩) := by
  simp [text]

theorem plain_cons {g : List Char × List Char} {groups : List (List Char × List Char)} :
    Plain ⟨g :: groups, rest⟩ ↔ (NoBracket g.1 ∧ NoBracket g.2) ∧ Plain ⟨groups, rest⟩ := by
  rw [Plain, List.forall_mem_cons, and_assoc]
  rfl

theorem names_cons (g : List Char × List Char) (groups : List (List Char × List Char)) (vs : List (List Char)) :
    names ⟨g :: groups, rest⟩ (vs :: values) = vs.flatMap fun v =>
      (names ⟨groups, rest⟩ values).map fun t => g.1 ++ v ++ t := by
  have hvs : vs = (List.range vs.length).map fun i => vs.getD i [] := by
    refine List.ext_getElem (by simp) fun i hi hi' => ?_
    simp [hi]
  conv_rhs => rw [hvs]
  simp [names, choices, List.map_flatMap, List.flatMap_map, fill, chosen, Function.comp_def]

/-- **A template made of parts** has the names of the parts. -/
theorem expandChars_text (hplain : p.Plain) (hgive : p.Give values) : expandChars p.text = .ok (p.names values) := by
  obtain ⟨groups, rest⟩ := p
  unfold Give at hgive
  dsimp only at hgive
  induction hgive with
  | nil =>
    rw [show text ⟨[], rest⟩ = rest from rfl, expandChars_plain hplain.2.1,
      if_neg (by simpa [hasClosing] using hplain.2.2)]
    simp [names, choices, fill, chosen]
  | cons hyields hgive ih =>
    obtain ⟨⟨hlead, hgroup⟩, hplain⟩ := plain_cons.1 hplain
    rw [expandChars_group hlead.1 hgroup.2 (text_cons ..), if_neg (by simpa [hasClosing] using hlead.2),
      if_neg (by simpa using hgroup.1), members_eq_ok_iff.2 hyields, ih hplain, names_cons]
    rfl

theorem exists_of_expandChars {all : List (List Char)} (h : expandChars cs = .ok all) :
    ∃ p : Parts, ∃ values, p.text = cs ∧ p.Plain ∧ p.Give values ∧ all = p.names values := by
  -- what stands behind the first group is shorter
  induction hlen : cs.length using Nat.strong_induction_on generalizing cs all with | _ n ih
  by_cases hopen : '[' ∈ cs
  · obtain ⟨lead, behind, rfl, hlead⟩ := List.eq_append_cons_of_mem hopen
    by_cases hclose : ']' ∈ behind
    · obtain ⟨group, rest, rfl, hgroup⟩ := List.eq_append_cons_of_mem hclose
      rw [expandChars_group hlead hgroup rfl] at h
      split at h
      · cases h
      · rename_i hlead'
        split at h
        · cases h
        · rename_i hgroup'
          obtain ⟨vs, hvs, h⟩ := exists_of_bind_eq_ok h
          obtain ⟨tails, htails, h⟩ := exists_of_bind_eq_ok h
          cases h
          rw [mapError_eq_ok_iff] at hvs htails
          obtain ⟨⟨groups, last⟩, values, htext, hplain, hgive, rfl⟩ :=
            ih rest.length (by simp [← hlen]; omega) htails rfl
          refine ⟨⟨(lead, group) :: groups, last⟩, vs :: values, ?_, ?_, ?_, ?_⟩
          · rw [text_cons, htext]
          · exact plain_cons.2 ⟨⟨⟨hlead, by simpa [hasClosing] using hlead'⟩, by simpa using hgroup', hgroup⟩, hplain⟩
          · exact .cons (members_eq_ok_iff.1 hvs) hgive
          · rw [names_cons]
    · rw [expandChars_unterminated hlead hclose] at h
      cases h
  · rw [expandChars_plain hopen] at h
    split at h
    · cases h
    · rename_i hclose
      cases h
      refine ⟨⟨[], cs⟩, [], rfl, ⟨by simp, hopen, by simpa [hasClosing] using hclose⟩, .nil, ?_⟩
      simp [names, choices, fill, chosen]

theorem names_ne_nil (hgive : p.Give values) : p.names values ≠ [] := by
  obtain ⟨groups, rest⟩ := p
  unfold Give at hgive
  dsimp only at hgive
  induction hgive with
  | nil => simp [names, choices]
  | cons hyields hgive ih =>
    obtain ⟨v, hv⟩ := List.exists_mem_of_ne_nil _ hyields.ne_nil
    rw [names_cons]
    exact fun hnil => ih (List.map_eq_nil_iff.1 (List.flatMap_eq_nil_iff.1 hnil v hv))

theorem exists_give_iff : (∃ values, p.Give values) ↔ ∀ g ∈ p.groups, Admitted g.2 := by
  simp only [← exists_yields_iff]
  constructor
  · rintro ⟨values, hgive⟩ g hg
    obtain ⟨vs, -, hvs⟩ := exists_of_mem_left hgive hg
    exact ⟨vs, hvs⟩
  · exact exists_forall₂

end Parts

/-- **The names of a template** are those of its parts. -/
theorem expand_eq_ok_iff {s : String} {names : List String} :
    expand s = .ok names ↔ ∃ p : Parts, ∃ values, p.text = s.toList ∧ p.Plain ∧
    p.Give values ∧ names = (p.names values).map String.ofList := by
  constructor
  · intro h
    obtain ⟨all, hall, rfl⟩ := exists_of_map_eq_ok h
    obtain ⟨p, values, htext, hplain, hgive, rfl⟩ := Parts.exists_of_expandChars hall
    exact ⟨p, values, htext, hplain, hgive, rfl⟩
  · rintro ⟨p, values, htext, hplain, hgive, rfl⟩
    rw [expand, ← htext, Parts.expandChars_text hplain hgive]
    rfl

theorem entry_of_expand {s : String} {e : InvalidEntry} (h : expand s = .error e) : e.entry = s := by
  obtain ⟨fault, rfl⟩ := exists_fault_of_expandChars (map_eq_error_iff.1 h)
  exact String.ofList_toList

/-- **A level fails as the first of its templates that does.** -/
theorem names_of_error {s : String} {e : InvalidEntry} {before after : List String} (h : expand s = .error e)
    (hbefore : ∀ t ∈ before, ∃ names, expand t = .ok names) : Level.names ⟨before ++ s :: after⟩ = .error e := by
  have hnames : Level.namesOf (before ++ s :: after) = .error e := by
    induction before with
    | nil =>
      rw [List.nil_append, Level.namesOf, h]
      rfl
    | cons t before ih =>
      obtain ⟨ht, hbefore⟩ := List.forall_mem_cons.1 hbefore
      obtain ⟨names, hnames⟩ := ht
      rw [List.cons_append, Level.namesOf, hnames, ih hbefore]
      rfl
  rw [Level.names, hnames]
  rfl

/-- **A template has names just when it is text around groups that can be expanded**, no bracket within either.  The
names are then the text with every choice of values, each once, those of the first group varying slowest.  A template
without names is itself named by the error, and by that of its level where it is the first such. -/
theorem expand_exact (s : String) :
    ((∃ names, expand s = .ok names) ↔ ∃ p : Parts, p.text = s.toList ∧ p.Plain ∧ ∀ g ∈ p.groups, Admitted g.2) ∧
      (∀ names, expand s = .ok names ↔ ∃ p : Parts, ∃ values positions, p.text = s.toList ∧ p.Plain ∧ p.Give values ∧
        Enumerates (values.map List.length) positions ∧
        names = positions.map fun is => String.ofList (p.fill (chosen is values))) ∧
      (∀ names, expand s = .ok names → names ≠ []) ∧
      ∀ e, expand s = .error e → e.entry = s ∧
        ∀ before after, (∀ t ∈ before, ∃ names, expand t = .ok names) →
        Level.names ⟨before ++ s :: after⟩ = .error e := by
  refine ⟨?_, fun names => ?_, fun names h => ?_,
    fun e h => ⟨entry_of_expand h, fun before after hbefore => names_of_error h hbefore⟩⟩
  · simp only [expand_eq_ok_iff, ← Parts.exists_give_iff]
    constructor
    · rintro ⟨names, p, values, htext, hplain, hgive, -⟩
      exact ⟨p, htext, hplain, values, hgive⟩
    · rintro ⟨p, htext, hplain, values, hgive⟩
      exact ⟨_, p, values, htext, hplain, hgive, rfl⟩
  · rw [expand_eq_ok_iff]
    constructor
    · rintro ⟨p, values, htext, hplain, hgive, rfl⟩
      exact ⟨p, values, _, htext, hplain, hgive, enumerates_choices _, by simp [Parts.names, Function.comp_def]⟩
    · rintro ⟨p, values, positions, htext, hplain, hgive, hall, rfl⟩
      refine ⟨p, values, htext, hplain, hgive, ?_⟩
      rw [hall.eq (enumerates_choices _)]
      simp [Parts.names, Function.comp_def]
  · obtain ⟨p, values, -, -, hgive, rfl⟩ := expand_eq_ok_iff.1 h
    simpa using Parts.names_ne_nil hgive

/-- Two rows of two sides, and two of rows that end before they begin. -/
theorem expand_rows : expand "Row[1,2]['L', R]" = .ok ["Row1L", "Row1R", "Row2L", "Row2R"] ∧
    ["Row1L", "Row1R", "Row2L", "Row2R"] ≠ [] ∧
    ∃ e, expand "Side[1,2]Row[3,1]" = .error e ∧ e.entry = "Side[1,2]Row[3,1]" ∧ e.fault = .emptyRange 3 1 ∧
      Level.names ⟨["Left", "Side[1,2]Row[3,1]"]⟩ = .error e := by
  have hrows : expand "Row[1,2]['L', R]" = .ok ["Row1L", "Row1R", "Row2L", "Row2R"] := by decide +kernel
  have hleft : expand "Left" = .ok ["Left"] := by decide +kernel
  have hempty : expand "Side[1,2]Row[3,1]" = .error ⟨"Side[1,2]Row[3,1]", .emptyRange 3 1⟩ := by decide +kernel
  obtain ⟨hentry, hlevel⟩ := (expand_exact _).2.2.2 _ hempty
  exact ⟨hrows, (expand_exact _).2.2.1 _ hrows, _, hempty, hentry, rfl, hlevel ["Left"] [] (by simpa using ⟨_, hleft⟩)⟩

end Template
end SignalCatalog
