import Mathlib
import SignalCatalog.Proofs.Spec.Ending
import SignalCatalog.Proofs.Spec.Entries
import SignalCatalog.Proofs.Yaml.Sheet
/-!
# What loading puts together

Includes unfold to a list of files, each with its own entries and followed by what it brings in, statement by statement;
a file that is brought in twice is in the list twice.  Loading concatenates the entries of that list, unless two of them
have one key.
-/
namespace SignalCatalog
namespace Spec

open Relation (ReflTransGen TransGen)

variable {files : Files} {dirs : List String} {a b root : Occurrence} {os os' targets targets' : List Occurrence}
  {own own' data : Mapping} {rows rows' : List (Occurrence × Mapping)} {c : Call} {place : Place}
  {answers : Call → Except IncludeError Mapping} {statements : List String}

/-- **A file that can be read**, whose statements are well formed and mean files that are there: its own entries, below
its scope, and the files it brings in. -/
def Opens (files : Files) (dirs : List String) (a : Occurrence) (own : Mapping) (targets : List Occurrence) : Prop :=
  ∃ content data, files.read a.source = .ok content ∧ parse content a.source = .ok data ∧ own = putInside a.scope data ∧
    (Include.statements content).mapM (a.brings files dirs) = .ok targets

/-- **The unfolding of files**: each with its own entries, then what it brings in, then the files beside it. -/
inductive Unfolds (files : Files) (dirs : List String) : List Occurrence → List (Occurrence × Mapping) → Prop
  | nil : Unfolds files dirs [] []
  | cons {a own targets rest below beside} (hopens : Opens files dirs a own targets)
      (hbelow : Unfolds files dirs targets below) (hbeside : Unfolds files dirs rest beside) :
      Unfolds files dirs (a :: rest) ((a, own) :: below ++ beside)

def contributed (rows : List (Occurrence × Mapping)) : Mapping := rows.flatMap (·.2)

theorem Opens.keyed (h : Opens files dirs a own targets) : own.Keyed := by
  obtain ⟨content, data, -, hdata, rfl, -⟩ := h
  exact keyed_putInside (keyed_of_parse hdata)

/-! ## Unfoldings -/

theorem Unfolds.append (h : Unfolds files dirs os rows) (h' : Unfolds files dirs os' rows') :
    Unfolds files dirs (os ++ os') (rows ++ rows') := by
  induction h with
  | nil => exact h'
  | cons hopens hbelow _ _ ihbeside =>
    rw [List.cons_append, List.append_assoc]
    exact .cons hopens hbelow ihbeside

theorem Unfolds.repeatsKey (h : Unfolds files dirs os rows) : ∀ e ∈ contributed rows, e.1.repeatsKey = false := by
  rw [contributed, List.forall_mem_flatMap]
  induction h with
  | nil => simp
  | cons hopens _ _ ihbelow ihbeside =>
    rw [List.forall_mem_append, List.forall_mem_cons]
    exact ⟨⟨hopens.keyed.keys, ihbelow⟩, ihbeside⟩

end Spec
end SignalCatalog
