import Mathlib.Data.List.Forall2
import SignalCatalog.Proofs.Forest.Graft
/-!
# Instance paths

The levels of a branch become paths, level by level.  One content at many paths is a mark, a layer at many paths is
spread; what is put on the contents of a branch is made up of these two.
-/
namespace SignalCatalog

namespace Layer

variable {l : Layer} {c : Content} {p q r : List String} {ps A B : List (List String)} {k : Nat}

def mark (c : Content) (paths : List (List String)) : Layer := fun q => if q ∈ paths then some c else none

theorem mark_of_mem (h : q ∈ A) : mark c A q = some c := if_pos h

theorem mark_of_not_mem (h : q ∉ A) : mark c A q = none := if_neg h

theorem mark_nil : mark c [] = fun _ => none := by
  funext q
  exact mark_of_not_mem (by simp)

theorem single_shift_eq_mark (p : List String) : (single c).shift p = mark c [p] := by
  funext q
  by_cases hq : q = p
  · rw [hq, single_shift_self, mark_of_mem (by simp)]
  · rw [single_shift_of_ne hq, mark_of_not_mem (by simpa using hq)]

theorem onto_onto (h : c.autogenerated = false) (old : Option Content) : c.onto (some (c.onto old)) = c.onto old := by
  cases old with
  | none => simp [Content.onto, h]
  | some o =>
    cases ho : o.autogenerated <;> simp [Content.onto, ho]

/-- **Marks may be put on all at once**, even where they meet. -/
theorem fill_mark_mark (h : c.autogenerated = false) :
    (l.fill (mark c A)).fill (mark c B) = l.fill (mark c (A ++ B)) := by
  funext q
  by_cases hB : q ∈ B
  · rw [fill_of_some (mark_of_mem hB), fill_of_some (mark_of_mem (List.mem_append_right _ hB))]
    by_cases hA : q ∈ A
    · rw [fill_of_some (mark_of_mem hA), onto_onto h]
    · rw [fill_of_none (mark_of_not_mem hA)]
  · rw [fill_of_none (mark_of_not_mem hB)]
    by_cases hA : q ∈ A
    · rw [fill_of_some (mark_of_mem hA), fill_of_some (mark_of_mem (List.mem_append_left _ hA))]
    · rw [fill_of_none (mark_of_not_mem hA), fill_of_none (mark_of_not_mem (by simp [hA, hB]))]

/-- **No path of a list is taken by a node that is no branch.** -/
def ClearAt (l : Layer) (paths : List (List String)) : Prop := ∀ q ∈ paths, ∀ c, l q = some c → c.payload.kind = .branch

theorem clearAt_append : l.ClearAt (A ++ B) ↔ l.ClearAt A ∧ l.ClearAt B := by
  simp only [ClearAt, List.mem_append, or_imp, forall_and]

theorem clearAt_iff_all : l.ClearAt A ↔ ∀ q ∈ A, (l q).all (fun c => c.payload.kind = .branch) = true := by
  refine forall₂_congr fun q _ => ?_
  cases l q <;> simp

instance : Decidable (l.ClearAt A) := decidable_of_iff' _ clearAt_iff_all

theorem clearAt_fill (hc : c.payload.kind = .branch) (hA : l.ClearAt A) :
    (l.fill (mark c A)).ClearAt B ↔ l.ClearAt B := by
  refine forall₂_congr fun q _ => ?_
  by_cases hq : q ∈ A
  · rw [fill_of_some (mark_of_mem hq)]
    have hold := hA q hq
    refine iff_of_true (fun d hd => ?_) hold
    cases hd
    cases hl : l q with
    | none => exact hc
    | some o =>
      rw [Content.onto]
      split
      · exact hc
      · exact hold o hl
  · rw [fill_of_none (mark_of_not_mem hq)]

def spread (l : Layer) : List (List String) → Layer
  | [] => fun _ => none
  | p :: ps => fun q => (l.shift p q).or (l.spread ps q)

theorem exists_of_spread (h : l.spread ps q = some c) : ∃ p ∈ ps, ∃ r, q = p ++ r ∧ l r = some c := by
  induction ps with
  | nil => cases h
  | cons p ps ih =>
    rw [spread, Option.or_eq_some_iff] at h
    rcases h with h | ⟨-, h⟩
    · obtain ⟨r, hr⟩ := shift_eq_some.1 h
      exact ⟨p, List.mem_cons_self, r, hr⟩
    · obtain ⟨p', hp', h⟩ := ih h
      exact ⟨p', List.mem_cons_of_mem _ hp', h⟩

theorem not_prefix_append {p' : List String} (hne : p ≠ p') (hlen : p.length = p'.length) : ¬ p <+: p' ++ r := fun h =>
  hne ((List.prefix_of_prefix_length_le h (List.prefix_append p' r) (Nat.le_of_eq hlen)).eq_of_length hlen)

theorem spread_of_not_below (h : ∀ p ∈ ps, ¬ p <+: q) : l.spread ps q = none := by
  cases hs : l.spread ps q with
  | none => rfl
  | some c =>
    obtain ⟨p, hp, r, rfl, -⟩ := exists_of_spread hs
    exact absurd (List.prefix_append p r) (h p hp)

theorem shift_or_spread_eq_none (hp : p ∉ ps) (hlen : ∀ p' ∈ ps, p'.length = p.length) (q : List String) :
    l.shift p q = none ∨ l.spread ps q = none := by
  by_cases hq : p <+: q
  · obtain ⟨r, rfl⟩ := hq
    exact .inr (spread_of_not_below fun p' hp' => not_prefix_append (ne_of_mem_of_not_mem hp' hp) (hlen p' hp'))
  · exact .inl (shift_of_not_below hq)

theorem spread_append (hps : ps.Nodup) (hlen : ∀ p ∈ ps, p.length = k) (hp : p ∈ ps) : l.spread ps (p ++ r) = l r := by
  induction ps with
  | nil => cases hp
  | cons p' ps ih =>
    obtain ⟨hp', hrest⟩ := List.nodup_cons.1 hps
    obtain ⟨hlen', hlens⟩ := List.forall_mem_cons.1 hlen
    rw [spread]
    dsimp only
    rcases List.mem_cons.1 hp with rfl | hp
    · rw [shift_append, spread_of_not_below fun s hs => not_prefix_append (ne_of_mem_of_not_mem hs hp')
        (by rw [hlens s hs, hlen'])]
      exact Option.or_none
    · rw [shift_of_not_below (not_prefix_append (ne_of_mem_of_not_mem hp hp').symm (by rw [hlens p hp, hlen'])),
        Option.none_or, ih hrest hlens hp]

end Layer

namespace Level

variable {levels : List (List String)} {names : List String} {Ps : List (List String)} {q : List String}

def frontier (names : List String) (paths : List (List String)) : List (List String) :=
  paths.flatMap fun p => names.map fun name => p ++ [name]

/-- **The paths of all instances**, level by level. -/
def paths : List (List String) → List (List String) → List (List String)
  | [], _ => []
  | names :: rest, from_ => frontier names from_ ++ paths rest (frontier names from_)

/-- **The paths of the innermost instances.** -/
def leaves : List (List String) → List (List String) → List (List String)
  | [], from_ => from_
  | names :: rest, from_ => leaves rest (frontier names from_)

theorem nodup_children_paths (path : List String) (h : names.Nodup) : (names.map fun name => path ++ [name]).Nodup :=
  h.map fun _ _ hab => by simpa using hab

/-- **A path of instances**: a name of each level, from the outermost inwards. -/
def IsInstance (levels : List (List String)) (q : List String) : Prop :=
  q ≠ [] ∧ List.Forall₂ (· ∈ ·) q (levels.take q.length)

/-- **A path of an innermost instance**: a name of every level. -/
def IsInnermost (levels : List (List String)) (q : List String) : Prop := List.Forall₂ (· ∈ ·) q levels

theorem mem_frontier : q ∈ frontier names Ps ↔ ∃ p ∈ Ps, ∃ name ∈ names, q = p ++ [name] := by
  simp [frontier, eq_comm]

theorem mem_leaves : q ∈ leaves levels Ps ↔ ∃ p ∈ Ps, ∃ r, IsInnermost levels r ∧ q = p ++ r := by
  induction levels generalizing Ps with
  | nil => simp [leaves, IsInnermost]
  | cons names levels ih =>
    simp only [leaves, ih, mem_frontier, IsInnermost, List.forall₂_cons_right_iff]
    constructor
    · rintro ⟨_, ⟨p, hp, name, hname, rfl⟩, r, hr, rfl⟩
      exact ⟨p, hp, name :: r, ⟨name, r, hname, hr, rfl⟩, by simp⟩
    · rintro ⟨p, hp, _, ⟨name, r, hname, hr, rfl⟩, rfl⟩
      exact ⟨p ++ [name], ⟨p, hp, name, hname, rfl⟩, r, hr, by simp⟩

theorem mem_paths : q ∈ paths levels Ps ↔ ∃ p ∈ Ps, ∃ r, IsInstance levels r ∧ q = p ++ r := by
  induction levels generalizing Ps with
  | nil => simp [paths, IsInstance]
  | cons names levels ih =>
    rw [paths, List.mem_append, mem_frontier, ih]
    constructor
    · rintro (⟨p, hp, name, hname, rfl⟩ | ⟨_, hp', r, hr, rfl⟩)
      · exact ⟨p, hp, [name], ⟨by simp, by simpa using hname⟩, rfl⟩
      · obtain ⟨p, hp, name, hname, rfl⟩ := mem_frontier.1 hp'
        exact ⟨p, hp, name :: r, ⟨by simp, .cons hname hr.2⟩, by simp⟩
    · rintro ⟨p, hp, r, ⟨hr, hall⟩, rfl⟩
      cases r with
      | nil => exact absurd rfl hr
      | cons name r =>
        rw [List.length_cons, List.take_succ_cons, List.forall₂_cons] at hall
        cases r with
        | nil => exact .inl ⟨p, hp, name, hall.1, rfl⟩
        | cons name' r =>
          exact .inr ⟨p ++ [name], mem_frontier.2 ⟨p, hp, name, hall.1, rfl⟩, name' :: r, ⟨by simp, hall.2⟩, by simp⟩

theorem mem_paths_iff : q ∈ paths levels [[]] ↔ IsInstance levels q := by simp [mem_paths]

theorem mem_leaves_iff : q ∈ leaves levels [[]] ↔ IsInnermost levels q := by simp [mem_leaves]

theorem IsInnermost.length_eq (h : IsInnermost levels q) : q.length = levels.length := List.Forall₂.length_eq h

theorem IsInstance.length_le (h : IsInstance levels q) : q.length ≤ levels.length := by
  have := List.Forall₂.length_eq h.2
  rw [List.length_take] at this
  omega

theorem nodup_frontier (hnames : names.Nodup) (hPs : Ps.Nodup) : (frontier names Ps).Nodup := by
  refine List.nodup_flatMap.2 ⟨fun p _ => nodup_children_paths p hnames, hPs.imp fun hne q hq hq' => hne ?_⟩
  obtain ⟨name, -, rfl⟩ := List.mem_map.1 hq
  obtain ⟨name', -, h⟩ := List.mem_map.1 hq'
  exact (List.append_inj' h rfl).1.symm

theorem nodup_leaves (hlevels : ∀ names ∈ levels, names.Nodup) (hPs : Ps.Nodup) : (leaves levels Ps).Nodup := by
  induction levels generalizing Ps with
  | nil => exact hPs
  | cons names levels ih =>
    obtain ⟨hnames, hlevels⟩ := List.forall_mem_cons.1 hlevels
    exact ih hlevels (nodup_frontier hnames hPs)

end Level
end SignalCatalog
