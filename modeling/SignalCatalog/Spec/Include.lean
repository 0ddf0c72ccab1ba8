import SignalCatalog.Files
/-!
# Include statements

A line `#include file scope` brings in the entries of another file, below a scope if one is given.  To YAML such a line
is a comment.  The file is looked for in the directory of the including file and then in the directories of the run.
-/
namespace SignalCatalog

inductive IncludeError where
  | malformedStatement (statement : String)
  | notFound (target : String) (searched : List String)
  | duplicateEntry (key : String)
  | cycle (path : String)
  | unreadable (path : String) (cause : FileError)
  | notYaml (path : String)
  | notAMapping (path : String)
  deriving DecidableEq, Repr

def IncludeError.message : IncludeError → String
  | malformedStatement statement => "malformed include statement: '" ++ statement ++ "'"
  | notFound target searched => "unable to find include '" ++ target ++ "', searched: " ++ ", ".intercalate searched
  | duplicateEntry key => "duplicated key: '" ++ key ++ "'"
  | cycle path => "include cycle through " ++ path
  | unreadable path cause => "failed to read " ++ path ++ ": " ++ cause.message
  | notYaml path => "invalid YAML in " ++ path
  | notAMapping path => path ++ " must contain a mapping of node names"

/-- **A statement**: the file and the scope of its entries. -/
structure Include where
  target : String
  scope : Option String
  deriving DecidableEq, Repr

namespace Include

def directive : List Char := "#include".toList

def within (scope : Option String) (name : String) : String :=
  match scope with
  | some s => s ++ "." ++ name
  | none => name

/-- **A statement in a file whose own entries have a scope.**  Words beyond the third are passed over. -/
def parse (statement : String) (scope : Option String) : Except IncludeError Include :=
  match (Text.words statement.toList).map String.ofList with
  | _ :: target :: inner :: _ => .ok { target, scope := some (within scope inner) }
  | [_, target] => .ok { target, scope }
  | _ => .error (.malformedStatement statement)

/-- Whether a trimmed line is a statement: the directive alone or before a blank. -/
def isStatement (line : List Char) : Bool :=
  match directive.isPrefixOf? line with
  | some [] => true
  | some (c :: _) => Text.isBlank c
  | none => false

def statements (content : String) : List String :=
  (((Text.lines content.toList).map Text.trim).filter isStatement).map String.ofList

/-- **The file a statement means**: the first one there is in the directories searched. -/
def resolve (files : Files) (i : Include) (dirs : List String) : Except IncludeError String :=
  match (dirs.map fun d => Pathname.join d i.target).find? files.exists with
  | some path => .ok path
  | none => .error (.notFound i.target dirs)

/-- **The directories searched for a file's includes**: its own, then those of the run, each once. -/
def searchDirs (source : String) (dirs : List String) : List String :=
  let own := (Pathname.parent? source).toList
  dirs.foldl (fun acc d => if acc.any (Pathname.alike d) then acc else acc ++ [d]) own

end Include
end SignalCatalog
