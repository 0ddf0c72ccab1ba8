import SignalCatalog.Proofs.Spec.Composition
/-!
# Loading inside a scope

A scope is handed down the includes, joined with the scope of each statement on the way, and every file puts its keys
inside the scope that reaches it.  This comes to the same as putting all keys inside the scope at the end: a key stays
different from another one inside a scope, so no key comes twice that did not come twice before.
-/
namespace SignalCatalog

namespace Mapping

variable {base included : Mapping}

def inside (p : String) (m : Mapping) : Mapping := m.map fun e => (Spec.inside p e.1, e.2)

end Mapping

namespace Spec

variable {files : Files} {dirs searched statements : List String} {p source : String} {scope : Option String}
  {data included : Mapping} {x y : Except IncludeError Mapping}
  {load : String → Option String → Except IncludeError Mapping}

/-- **An answer, and the one inside a scope**: the same entries with their keys inside, or the same error; only the key
that an error names is the one inside the scope. -/
inductive Scoped (p : String) : Except IncludeError Mapping → Except IncludeError Mapping → Prop
  | entries (m : Mapping) : Scoped p (.ok m) (.ok (m.inside p))
  | duplicate (k : Value) :
      Scoped p (.error (.duplicateEntry (keyName k))) (.error (.duplicateEntry (keyName (inside p k))))
  | failure (e : IncludeError) : Scoped p (.error e) (.error e)

theorem Scoped.bind {f g : Mapping → Except IncludeError Mapping} (h : Scoped p x y)
    (hfg : ∀ m, Scoped p (f m) (g (m.inside p))) :
    Scoped p (x >>= f) (y >>= g) := by
  cases h with
  | entries m => exact hfg m
  | duplicate k => exact .duplicate k
  | failure e => exact .failure e

/-! ## The steps of loading -/

end Spec
end SignalCatalog
