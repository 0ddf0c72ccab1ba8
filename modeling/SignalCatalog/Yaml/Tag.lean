import SignalCatalog.Text.Percent
import SignalCatalog.Value.Tag
import SignalCatalog.Yaml.Source
/-!
# Tags in source text

A tag is written as a handle and a suffix: `!name`, `!!name` and `!handle!name`, or in full between `!<` and `>`.  A
table gives the text that each handle stands for; the first two handles have one from the outset.  What a whole tag says
about its node is a `NodeTag`.
-/
namespace SignalCatalog
namespace Yaml

/-- **What a tag says about its node**: a name of its own, a kind of scalar to be read, or that a scalar is text. -/
inductive NodeTag where
  /-- A tag that begins with an exclamation mark, without that mark. -/
  | named (name : String)
  | bool
  | int
  | float
  | null
  | text
  /-- A tag that begins with an exclamation mark but is no text, and says nothing. -/
  | nameless
  deriving DecidableEq, Repr

/-- Percent-decoded characters, `none` for a sequence of bytes that is no character. -/
abbrev Spelling := List (Option Char)

def Spelling.beforeNul (s : Spelling) : Spelling := s.takeWhile (· != some (Char.ofNat 0))

def Spelling.ofString (s : String) : Spelling := s.toList.map some

def coreStem : String := "tag:yaml.org,2002:"

/-- **The meaning of a whole tag.** -/
def NodeTag.ofSpelling (s : Spelling) : NodeTag :=
  match s.mapM id with
  | some cs =>
    let tag := String.ofList cs
    if tag = coreStem ++ "bool" then .bool
    else if tag = coreStem ++ "int" then .int
    else if tag = coreStem ++ "float" then .float
    else if tag = coreStem ++ "null" then .null
    else if cs.head? = some '!' then .named (Tag.unmarked tag)
    else .text
  | none => if s.head? = some (some '!') then .nameless else .text

def NodeTag.name? : NodeTag → Option String
  | .named name => some name
  | _ => none

/-- **The texts that handles stand for.** -/
abbrev HandleTable := List (String × Spelling)

def HandleTable.standard : HandleTable := [("!", Spelling.ofString "!"), ("!!", Spelling.ofString coreStem)]

/-- The text of a handle: that of a directive before the standard one. -/
def HandleTable.find? (table : HandleTable) (handle : String) : Option Spelling :=
  ((table ++ standard).lookup handle).map Spelling.beforeNul

def isWordChar (c : Char) : Bool := c.isAlphanum || c == '_' || c == '-'

/-- A character of a tag, the percent sign of an encoded one included. -/
def isTagChar (c : Char) : Bool := isWordChar c || ";/?:@&=+$.%!~*'()".toList.contains c

def isFullTagChar (c : Char) : Bool := isTagChar c || c == ',' || c == '[' || c == ']'

/-- The percent-decoded run of characters of a kind, and what follows it. -/
def spelling (isPart : Char → Bool) (cs : List Cell) : Except YamlError (Spelling × List Cell) :=
  match Text.Percent.decode (chars (cs.takeWhile fun c => isPart c.char)) with
  | some s => .ok (s, cs.dropWhile fun c => isPart c.char)
  | none => .error .badTag

def someSpelling (isPart : Char → Bool) (cs : List Cell) : Except YamlError (Spelling × List Cell) := do
  let (s, r) ← spelling isPart cs
  if s.isEmpty then throw .badTag else return (s, r)

/-- A handle, from behind its first mark: a word with a second mark behind it, if there is one. -/
def markedHandle? (cs : List Cell) : Option (String × List Cell) :=
  let word := chars (cs.takeWhile fun c => isWordChar c.char)
  match cs.dropWhile fun c => isWordChar c.char with
  | c :: r => if c.char = '!' then some (String.ofList ('!' :: word ++ ['!']), r) else none
  | [] => none

/-- **The spelling of a whole tag**, from behind its first mark. -/
def wholeTag (table : HandleTable) (cs : List Cell) : Except YamlError (Spelling × List Cell) :=
  match cs with
  | [] => .ok ([some '!'], [])
  | c :: r =>
    if c.char = '<' then do
      let (s, after) ← someSpelling isFullTagChar r
      match after with
      | d :: after => if d.char = '>' then return (s.beforeNul, after) else throw .badTag
      | [] => throw .badTag
    else
      match markedHandle? cs with
      | some (handle, r) => do
        let (suffix, after) ← someSpelling isTagChar r
        match table.find? handle with
        | some stem => return (stem ++ suffix.beforeNul, after)
        | none => throw .badTag
      | none => do
        let (suffix, after) ← spelling isTagChar cs
        match suffix.beforeNul, table.find? "!" with
        | [], _ => return ([some '!'], after)
        | suffix, some stem => return (stem ++ suffix, after)
        | _, none => throw .badTag

/-- **A tag**, from behind its first mark; a blank has to follow it, or a comma in a flow collection. -/
def readTag (table : HandleTable) (inFlow : Bool) (cs : List Cell) : Except YamlError (NodeTag × List Cell) := do
  let (s, after) ← wholeTag table cs
  let comma :=
    match after with
    | c :: _ => c.char == ','
    | [] => false
  if endsWord after || (inFlow && comma) then return (.ofSpelling s, after) else throw .badTag

end Yaml
end SignalCatalog
