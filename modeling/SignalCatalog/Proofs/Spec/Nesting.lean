import Mathlib.Data.Finset.Card
import SignalCatalog.Proofs.Steps
import SignalCatalog.Spec.Load
/-!
# How deep files nest

Each call of the loader passes on the places of the files that led to it, and refuses a place that is among them.  So a
chain of calls is never longer than there are files, and but for one call more.  The recursion without a bound has
exactly one solution, and loading answers as it does: the bound is never met.
-/
namespace SignalCatalog

namespace Files

variable {files : Files} {place : Place} {p content : String}

def hasText (files : Files) (place : Place) : Bool :=
  match files.at? place with
  | some (.text _) => true
  | _ => false

theorem hasText_iff : files.hasText place = true ↔ ∃ content, files.at? place = some (.text content) := by
  rw [hasText]
  split
  · rename_i content hat
    simp [hat]
  · rename_i hnot
    simpa using fun content hat => hnot content hat

/-- **The places that hold a text.** -/
def texts (files : Files) : Finset Place :=
  (files.entries.map (·.1)).toFinset.filter fun place => files.hasText place = true

theorem mem_texts : place ∈ files.texts ↔ ∃ content, files.at? place = some (.text content) := by
  rw [texts, Finset.mem_filter, hasText_iff, List.mem_toFinset, List.mem_map]
  exact ⟨And.right, fun h => ⟨⟨_, mem_of_at?_text h.choose_spec, rfl⟩, h⟩⟩

end Files

namespace Spec

/-- **A file as it is brought in**: the path it is read by, and the scope of its entries. -/
structure Occurrence where
  source : String
  scope : Option String
  deriving DecidableEq

def Occurrence.brings (files : Files) (dirs : List String) (o : Occurrence) (statement : String) :
    Except IncludeError Occurrence := do
  let i ← Include.parse statement o.scope
  let source ← i.resolve files (Include.searchDirs o.source dirs)
  return ⟨source, i.scope⟩

/-- **A call of the loader**: a file, below the places of those that led to it. -/
structure Call extends Occurrence where
  stack : List Place

variable {files : Files} {dirs : List String} {o : Occurrence} {c c' : Call}
  {f g : Call → Except IncludeError Mapping} {data : Mapping} {statements : List String}
  {load load' : String → Option String → Except IncludeError Mapping} {depth depth' : Nat}

theorem addIncludes_cons (statement : String) :
    addIncludes files load (Include.searchDirs o.source dirs) o.scope data (statement :: statements) = (do
      let t ← o.brings files dirs statement
      let data ← addIncluded data (← load t.source t.scope)
      addIncludes files load (Include.searchDirs o.source dirs) o.scope data statements) := by
  simp only [addIncludes, Occurrence.brings, bind_assoc, pure_bind]

theorem addIncludes_congr
    (h : ∀ statement ∈ statements, ∀ t, o.brings files dirs statement = .ok t →
      load t.source t.scope = load' t.source t.scope) :
    addIncludes files load (Include.searchDirs o.source dirs) o.scope data statements =
      addIncludes files load' (Include.searchDirs o.source dirs) o.scope data statements := by
  induction statements generalizing data with
  | nil => rfl
  | cons statement statements ih =>
    obtain ⟨hfirst, hrest⟩ := List.forall_mem_cons.1 h
    rw [addIncludes_cons, addIncludes_cons]
    cases hbrings : o.brings files dirs statement with
    | error => rfl
    | ok t =>
      change (load t.source t.scope >>= fun m => addIncluded data m >>= _) =
        (load' t.source t.scope >>= fun m => addIncluded data m >>= _)
      rw [hfirst t hbrings]
      exact bind_congr fun m => bind_congr fun data => ih hrest

/-- **One call answered by the answers to the calls it makes.** -/
def answer (files : Files) (dirs : List String) (answers : Call → Except IncludeError Mapping) (c : Call) :
    Except IncludeError Mapping :=
  match files.locate c.source with
  | .error cause => .error (.unreadable c.source cause)
  | .ok place =>
    if c.stack.contains place then .error (.cycle c.source)
    else
      match files.at? place with
      | some (.text content) => do
        let data ← parse content c.source
        addIncludes files (fun source scope => answers ⟨⟨source, scope⟩, place :: c.stack⟩)
          (Include.searchDirs c.source dirs) c.scope (putInside c.scope data) (Include.statements content)
      | _ => .error (.unreadable c.source .isDirectory)

/-- **One call makes another**, for a statement in the text it reads. -/
def Calls (files : Files) (dirs : List String) (c c' : Call) : Prop :=
  ∃ place content, files.locate c.source = .ok place ∧ place ∉ c.stack ∧ files.at? place = some (.text content) ∧
    (∃ statement ∈ Include.statements content, c.brings files dirs statement = .ok c'.toOccurrence) ∧
    c'.stack = place :: c.stack

theorem answer_congr (h : ∀ c', Calls files dirs c c' → f c' = g c') :
    answer files dirs f c = answer files dirs g c := by
  rw [answer, answer]
  cases hplace : files.locate c.source with
  | error => rfl
  | ok place =>
    dsimp only
    split
    · rfl
    · rename_i hnew
      split
      · rename_i content hcontent
        refine bind_congr fun data => addIncludes_congr fun statement hmem t ht => h _ ?_
        exact ⟨place, content, hplace, by simpa using hnew, hcontent, ⟨statement, hmem, ht⟩, rfl⟩
      · rfl

/-! ## The files that are left -/

def Call.ahead (files : Files) (c : Call) : Nat := (files.texts \ c.stack.toFinset).card

theorem ahead_lt_of_calls (h : Calls files dirs c c') : c'.ahead files < c.ahead files := by
  obtain ⟨place, content, -, hnew, hcontent, -, hstack⟩ := h
  refine Finset.card_lt_card (Finset.ssubset_iff_of_subset ?_ |>.2 ⟨place, ?_, ?_⟩)
  · intro p hp
    rw [hstack] at hp
    simp only [Finset.mem_sdiff, List.mem_toFinset, List.mem_cons, not_or] at hp ⊢
    exact ⟨hp.1, hp.2.2⟩
  · exact Finset.mem_sdiff.2 ⟨Files.mem_texts.2 ⟨content, hcontent⟩, List.mem_toFinset.not.2 hnew⟩
  · simp [hstack]

theorem wellFounded_calls (files : Files) (dirs : List String) : WellFounded fun c' c => Calls files dirs c c' :=
  Subrelation.wf ahead_lt_of_calls (measure (Call.ahead files)).wf

/-- **Answers that agree with each other**: a solution of the loader's recursion. -/
def Solves (files : Files) (dirs : List String) (answers : Call → Except IncludeError Mapping) : Prop :=
  ∀ c, answers c = answer files dirs answers c

theorem Solves.eq (hf : Solves files dirs f) (hg : Solves files dirs g) : f = g := by
  funext c
  induction c using (wellFounded_calls files dirs).induction with
  | _ c ih =>
    rw [hf c, hg c]
    exact answer_congr ih

end Spec
end SignalCatalog
