/-!
# Tags

A value may carry a tag, which is known by its name and shown with an exclamation mark in front.  The tag that is
written as the mark alone is named by the mark.
-/
namespace SignalCatalog

/-- **A tag, by its name.** -/
structure Tag where
  name : String
  deriving DecidableEq, Repr, Inhabited

namespace Tag

/-- A text without the exclamation mark it begins with, unless it is the mark alone. -/
def unmarked (s : String) : String :=
  match s.toList with
  | '!' :: c :: r => String.ofList (c :: r)
  | _ => s

/-- The tag of a text, which may be written with its mark or without. -/
def ofText (s : String) : Tag := ⟨unmarked s⟩

/-- **A tag as it is shown.** -/
def text (t : Tag) : String := "!" ++ t.name

/-- The tag that the name of a tag is read as: a mark that the name itself begins with goes. -/
def reread (t : Tag) : Tag := ofText t.name

end Tag
end SignalCatalog
