/-!
# Source text with positions

YAML is read from a list of characters that know their line, their column and how many bytes of text are before them.
The line ends of other systems are turned into line feeds on the way, and characters that no document may hold are
refused.
-/
namespace SignalCatalog
namespace Yaml

/-- **Why a text is not one YAML document.** -/
inductive YamlError where
  | forbiddenCharacter
  | misplacedTab
  | unclosedQuote
  | badEscape
  | badTag
  | badBlockHeader
  | misplacedColon
  | missingColon
  | misplacedIndicator
  | strayCharacter
  | alias
  | badDirective
  | missingNode
  | missingEntry
  | missingKey
  | unclosedCollection
  | severalDocuments
  | duplicateKey
  | integerTooLarge
  | wrongTaggedScalar
  | tooDeep
  deriving DecidableEq, Repr

/-- A character and where it stands. -/
structure Cell where
  char : Char
  line : Nat
  /-- The characters before it on its line. -/
  column : Nat
  /-- The bytes before it in the text. -/
  index : Nat
  deriving Repr, Inhabited

def isSpace (c : Char) : Bool := c == ' ' || c == '\t'

/-- A line feed or one of the two Unicode separators. -/
def isBreak (c : Char) : Bool := c == '\n' || c.toNat == 0x2028 || c.toNat == 0x2029

def isSpaceOrBreak (c : Char) : Bool := isSpace c || isBreak c

def isAllowed (c : Char) : Bool :=
  let n := c.toNat
  n == 9 || n == 10 || n == 13 || (decide (0x20 ≤ n) && decide (n ≤ 0x7E)) || n == 0x85 ||
    (decide (0xA0 ≤ n) && decide (n ≤ 0xFFFD)) || decide (0x10000 ≤ n)

/-- The line feed for a line end of one character, any other character itself. -/
def normalized (c : Char) : Char := if c == '\r' || c.toNat == 0x85 then '\n' else c

def cellsFrom (line column index : Nat) : List Char → List Cell
  | [] => []
  | '\r' :: '\n' :: r => { char := '\n', line, column, index } :: cellsFrom (line + 1) 0 (index + 2) r
  | c :: r =>
    { char := normalized c, line, column, index } ::
      (if isBreak (normalized c) then cellsFrom (line + 1) 0 (index + c.utf8Size) r
       else cellsFrom line (column + 1) (index + c.utf8Size) r)

/-- **The characters of a text with their positions.** -/
def cells (text : String) : Except YamlError (List Cell) :=
  if text.toList.all isAllowed then .ok (cellsFrom 0 0 0 text.toList) else .error .forbiddenCharacter

def chars (cs : List Cell) : List Char := cs.map (·.char)

/-- Whether what stands here ends a word: a space, a break or the end of the text. -/
def endsWord : List Cell → Bool
  | [] => true
  | c :: _ => isSpaceOrBreak c.char

/-- Whether a line begins here with three equal marks that stand alone, as `---` and `...` do. -/
def isMarker (mark : Char) : List Cell → Bool
  | a :: b :: c :: r => a.column == 0 && a.char == mark && b.char == mark && c.char == mark && endsWord r
  | _ => false

def atMarker (cs : List Cell) : Bool := isMarker '-' cs || isMarker '.' cs

/-- **White space between two words of a scalar**: spaces, or line breaks of which the first one folds. -/
structure Gap where
  spaces : List Char := []
  /-- Whether a line has ended in the gap. -/
  broken : Bool := false
  /-- The break that ended it. -/
  first : Option Char := none
  more : List Char := []

namespace Gap

def push (g : Gap) (c : Char) : Gap :=
  if isBreak c then
    if g.broken then { g with more := g.more ++ [c] } else { broken := true, first := some c }
  else if g.broken then g
  else { g with spaces := g.spaces ++ [c] }

/-- **What a gap contributes**: a single line feed becomes a space, further breaks stand for themselves. -/
def text (g : Gap) : List Char :=
  if g.broken then
    match g.first with
    | some '\n' => if g.more.isEmpty then [' '] else g.more
    | some c => c :: g.more
    | none => g.more
  else g.spaces

end Gap

end Yaml
end SignalCatalog
