import SignalCatalog.Yaml.Scalar
import SignalCatalog.Yaml.Tag
/-!
# Directives

A line with a percent sign in front of a document says which YAML the document is written in, or what text a handle of
its tags stands for.
-/
namespace SignalCatalog
namespace Yaml

/-- **What the directives of a document have said.** -/
structure Directives where
  hasVersion : Bool := false
  handles : HandleTable := []
  deriving Repr

def versionNumber (cs : List Cell) : Except YamlError (String × List Cell) :=
  let digits := chars (cs.takeWhile fun c => c.char.isDigit)
  if digits.isEmpty ∨ 9 < digits.length then .error .badDirective
  else .ok (String.ofList digits, cs.dropWhile fun c => c.char.isDigit)

def skipSpaces (cs : List Cell) : List Cell := cs.dropWhile fun c : Cell => isSpace c.char

def version (cs : List Cell) : Except YamlError ((String × String) × List Cell) := do
  let (major, r) ← versionNumber (skipSpaces cs)
  match r with
  | c :: r =>
    if c.char = '.' then
      let (minor, after) ← versionNumber r
      return ((major, minor), after)
    else throw .badDirective
  | [] => throw .badDirective

def unpadded (digits : String) : String := String.ofList (digits.toList.dropWhile (· == '0'))

def isKnownVersion (major minor : String) : Bool :=
  unpadded major == "1" && (unpadded minor == "1" || unpadded minor == "2")

/-- A handle in a directive, which is the mark alone or has a mark at either end. -/
def declaredHandle (cs : List Cell) : Except YamlError (String × List Cell) :=
  match cs with
  | c :: r =>
    if c.char ≠ '!' then .error .badDirective
    else
      match markedHandle? r with
      | some found => .ok found
      | none => if r.head?.any (fun d => isWordChar d.char) then .error .badDirective else .ok ("!", r)
  | [] => .error .badDirective

def declaration (cs : List Cell) : Except YamlError ((String × Spelling) × List Cell) := do
  let (handle, r) ← declaredHandle (skipSpaces cs)
  if r.head?.any (fun c => isSpace c.char) then
    let (stem, after) ← someSpelling isFullTagChar (skipSpaces r)
    if endsWord after then return ((handle, stem), after) else throw .badDirective
  else throw .badDirective

/-- **A directive**, from behind its percent sign, and what follows its line.  Nothing may be said twice, and the
version has to be one of the two there are. -/
def Directives.read (d : Directives) (cs : List Cell) : Except YamlError (Directives × List Cell) := do
  let name := String.ofList (chars (cs.takeWhile fun c => isWordChar c.char))
  let r := cs.dropWhile fun c => isWordChar c.char
  if !endsWord r then throw .badDirective
  let (d, after) ←
    match name with
    | "YAML" => do
      let ((major, minor), after) ← version r
      if d.hasVersion || !isKnownVersion major minor then throw .badDirective
      pure ({ d with hasVersion := true }, after)
    | "TAG" => do
      let ((handle, stem), after) ← declaration r
      if (d.handles.lookup handle).isSome then throw .badDirective
      pure ({ d with handles := d.handles ++ [(handle, stem)] }, after)
    | _ => throw .badDirective
  return (d, ← restOfLine .badDirective after)

end Yaml
end SignalCatalog
