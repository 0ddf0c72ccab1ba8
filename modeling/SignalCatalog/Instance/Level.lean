import SignalCatalog.Instance.Template
import SignalCatalog.Value.Basic
/-!
# Levels of instances

A branch declares its instances as levels, the levels below each other and the names of one level beside each other.  A
declaration is one template, a list of plain names that make up one level, or a list with one level an entry.
-/
namespace SignalCatalog

/-- **One level**: the templates of its sibling names. -/
structure Level where
  templates : List String
  deriving DecidableEq, Repr, Inhabited

namespace Level

def namesOf : List String → Except InvalidEntry (List String)
  | [] => .ok []
  | t :: r => do return (← Template.expand t) ++ (← namesOf r)

/-- **The sibling names of a level**, in declared order; a level without a name is an error. -/
def names (l : Level) : Except InvalidEntry (List String) := do
  let names ← namesOf l.templates
  if names.isEmpty then throw { entry := Text.quotedList l.templates, fault := .noNames }
  return names

def toValue (l : Level) : Value :=
  match l.templates with
  | [only] => .string only
  | many => .list (many.map .string)

/-- Why a value declares no instances. -/
inductive DeclarationError where
  | notInstances (form : String)
  | notLevel (form : String)
  | notName (form : String)
  deriving DecidableEq, Repr

def DeclarationError.reason : DeclarationError → String
  | notInstances form => "expected string or list, got " ++ form
  | notLevel form => "instance level must be a string or list, got " ++ form
  | notName form => "instance name must be a string, got " ++ form

def hasBracket (template : String) : Bool := template.toList.contains '['

/-- A name that needs no template: a string without brackets or a number. -/
def plainName? : Value → Option String
  | .string s => if hasBracket s then none else some s
  | .number n => some n.text
  | _ => none

def nameOf : Value → Except DeclarationError String
  | .string s => .ok s
  | .number n => .ok n.text
  | other => .error (.notName other.formName)

def ofValue : Value → Except DeclarationError Level
  | .string s => .ok ⟨[s]⟩
  | .list names => do return ⟨← names.mapM nameOf⟩
  | other => .error (.notLevel other.formName)

/-- **The levels a value declares**, outermost first. -/
def parse : Value → Except DeclarationError (List Level)
  | .null => .ok []
  | .string s => .ok [⟨[s]⟩]
  | .list items =>
    match items.mapM plainName? with
    | some [] => .ok []
    | some names => .ok [⟨names⟩]
    | none => items.mapM ofValue
  | other => .error (.notInstances other.formName)

/-- **The value that declares levels**: a lone level of several plain names is a list of them. -/
def declaration (levels : List Level) : Value :=
  match levels with
  | [only] =>
    if 1 < only.templates.length && only.templates.all (fun t => !hasBracket t) then only.toValue
    else .list [only.toValue]
  | levels => .list (levels.map toValue)

end Level
end SignalCatalog
