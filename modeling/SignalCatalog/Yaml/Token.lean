import SignalCatalog.Yaml.Directive
/-!
# Tokens

A text as a list of tokens.  Block collections have no brackets in the text: their beginnings and ends are found from
columns, and a key is known as one only at the colon behind it, so the tokens of a key and of the mapping it opens are
put in where the key began.  Tags are read with what the directives before them have said.
-/
namespace SignalCatalog
namespace Yaml

inductive Token where
  | directive
  | documentStart
  | documentEnd
  | blockSequenceStart
  | blockMappingStart
  | blockEnd
  | flowSequenceStart
  | flowSequenceEnd
  | flowMappingStart
  | flowMappingEnd
  | blockEntry
  | flowEntry
  | key
  | value
  | tag (tag : NodeTag)
  | scalar (text : String) (form : ScalarForm)
  deriving DecidableEq, Repr

/-- **Where a key may have begun**: the number of tokens before it and its position.  A key that is required has to be
followed by its colon. -/
structure KeyStart where
  tokens : Nat
  required : Bool
  line : Nat
  column : Nat
  index : Nat

/-- **A text being cut into tokens.** -/
structure Scanner where
  rest : List Cell
  tokens : Array Token := #[]
  directives : Directives := {}
  /-- The column of the innermost block collection. -/
  indent : Int := -1
  outerIndents : List Int := []
  /-- The possible key of the current flow collection, or of the block around all of them. -/
  keyStart : Option KeyStart := none
  /-- Those of the flow collections around the current one. -/
  outerKeys : List (Option KeyStart) := []
  /-- Whether a key may begin here. -/
  keyAllowed : Bool := true

namespace Scanner

def inFlow (s : Scanner) : Bool := !s.outerKeys.isEmpty

def emit (s : Scanner) (t : Token) : Scanner := { s with tokens := s.tokens.push t }

/-- A token put in before the tokens from the `n`-th on. -/
def emitAt (s : Scanner) (n : Nat) (t : Token) : Scanner :=
  { s with tokens := s.tokens.extract 0 n ++ #[t] ++ s.tokens.extract n s.tokens.size }

/-- A block collection begins, if the column lies right of the current one. -/
def openBlock (s : Scanner) (column : Nat) (t : Token) (place : Nat) : Scanner :=
  if !s.inFlow && decide (s.indent < column) then
    { s.emitAt place t with indent := column, outerIndents := s.indent :: s.outerIndents }
  else s

def closeBlocks (s : Scanner) (column : Int) : Scanner :=
  let rec close (tokens : Array Token) (indent : Int) : List Int → Array Token × Int × List Int
    | [] => (tokens, indent, [])
    | outer :: r => if column < indent then close (tokens.push .blockEnd) outer r else (tokens, indent, outer :: r)
  if s.inFlow then s
  else
    let (tokens, indent, outerIndents) := close s.tokens s.indent s.outerIndents
    { s with tokens, indent, outerIndents }

/-- The possible key is given up; a required one must not be. -/
def dropKey (s : Scanner) : Except YamlError Scanner :=
  if s.keyStart.any (·.required) then .error .missingColon else .ok { s with keyStart := none }

/-- **A key may begin at this character**; it is required where the current block mapping has its keys. -/
def saveKey (s : Scanner) (c : Cell) : Except YamlError Scanner := do
  if s.keyAllowed then
    let s ← s.dropKey
    let start : KeyStart :=
      { tokens := s.tokens.size, required := !s.inFlow && s.indent == (c.column : Int), line :=
        c.line, column := c.column
        index := c.index }
    return { s with keyStart := some start }
  else return s

/-- A key stays on one line and within a thousand and twenty-four bytes. -/
def isStale (c : Cell) (k : KeyStart) : Bool := decide (k.line < c.line) || decide (k.index + 1024 < c.index)

/-- Possible keys that this character is too far from are given up. -/
def dropStaleKeys (s : Scanner) (c : Cell) : Except YamlError Scanner :=
  let gone (k : Option KeyStart) : Bool := k.any (isStale c)
  if (s.keyStart :: s.outerKeys).any fun k => gone k && k.any (·.required) then .error .missingColon
  else
    let keep (k : Option KeyStart) : Option KeyStart := if gone k then none else k
    .ok { s with keyStart := keep s.keyStart, outerKeys := s.outerKeys.map keep }

/-- **White space and comments before a token.**  A tab is white space only where no key may begin; a line break of
block text lets one begin; a byte order mark may begin any line. -/
def skipBlank (inFlow : Bool) (keyAllowed inComment : Bool) : List Cell → Bool × List Cell
  | [] => (keyAllowed, [])
  | c :: r =>
    if isBreak c.char then skipBlank inFlow (keyAllowed || !inFlow) false r
    else if inComment then skipBlank inFlow keyAllowed true r
    else if c.char == ' ' || (c.char == '\t' && (inFlow || !keyAllowed)) then skipBlank inFlow keyAllowed false r
    else if c.char == '#' then skipBlank inFlow keyAllowed true r
    else if c.column == 0 && c.char.toNat == 0xFEFF then skipBlank inFlow keyAllowed false r
    else (keyAllowed, c :: r)

/-- A line that says something about the document behind it. -/
def directive (s : Scanner) (r : List Cell) : Except YamlError Scanner := do
  let s ← (s.closeBlocks (-1)).dropKey
  let (directives, after) ← s.directives.read r
  return { s.emit .directive with directives, keyAllowed := false, rest := after }

def marker (s : Scanner) (t : Token) : Except YamlError Scanner := do
  let s ← (s.closeBlocks (-1)).dropKey
  return { s.emit t with keyAllowed := false, rest := s.rest.drop 3 }

def openFlow (s : Scanner) (c : Cell) (r : List Cell) (t : Token) : Except YamlError Scanner := do
  let s ← s.saveKey c
  return { s.emit t with outerKeys := s.keyStart :: s.outerKeys, keyStart := none, keyAllowed := true, rest := r }

def closeFlow (s : Scanner) (r : List Cell) (t : Token) : Except YamlError Scanner := do
  let s ← s.dropKey
  let s :=
    match s.outerKeys with
    | k :: ks => { s with keyStart := k, outerKeys := ks }
    | [] => s
  return { s.emit t with keyAllowed := false, rest := r }

def flowEntry (s : Scanner) (r : List Cell) : Except YamlError Scanner := do
  let s ← s.dropKey
  return { s.emit .flowEntry with keyAllowed := true, rest := r }

def blockEntry (s : Scanner) (c : Cell) (r : List Cell) : Except YamlError Scanner := do
  if !s.inFlow && !s.keyAllowed then throw .misplacedIndicator
  let s ← (s.openBlock c.column .blockSequenceStart s.tokens.size).dropKey
  return { s.emit .blockEntry with keyAllowed := true, rest := r }

def explicitKey (s : Scanner) (c : Cell) (r : List Cell) : Except YamlError Scanner := do
  if !s.inFlow && !s.keyAllowed then throw .misplacedIndicator
  let s ← (s.openBlock c.column .blockMappingStart s.tokens.size).dropKey
  return { s.emit .key with keyAllowed := !s.inFlow, rest := r }

/-- **A colon before a value.**  If a key may have begun, it did: its token and, in block text, the beginning of its
mapping go in front of it. -/
def colon (s : Scanner) (c : Cell) (r : List Cell) : Except YamlError Scanner := do
  match s.keyStart with
  | some k =>
    let s := (s.emitAt k.tokens .key).openBlock k.column .blockMappingStart k.tokens
    return { s.emit .value with keyStart := none, keyAllowed := false, rest := r }
  | none =>
    if !s.inFlow && !s.keyAllowed then throw .misplacedIndicator
    let s := s.openBlock c.column .blockMappingStart s.tokens.size
    return { s.emit .value with keyAllowed := !s.inFlow, rest := r }

def tag (s : Scanner) (c : Cell) (r : List Cell) : Except YamlError Scanner := do
  let s ← s.saveKey c
  let (t, after) ← readTag s.directives.handles s.inFlow r
  return { s.emit (.tag t) with keyAllowed := false, rest := after }

def quoted (s : Scanner) (c : Cell) (r : List Cell) : Except YamlError Scanner := do
  let s ← s.saveKey c
  let (text, after) ← if c.char == '"' then doubleQuoted [] none r else singleQuoted [] none r
  return { s.emit (.scalar (String.ofList text) .quoted) with keyAllowed := false, rest := after }

/-- A plain scalar; a key may begin behind it if a line has ended since. -/
def plainScalar (s : Scanner) (c : Cell) (r : List Cell) : Except YamlError Scanner := do
  let s ← s.saveKey c
  let (text, broken, after) ← plain s.inFlow (s.indent + 1).toNat [] none (c :: r)
  return { s.emit (.scalar (String.ofList text) .plain) with keyAllowed := broken, rest := after }

def blockScalar (s : Scanner) (c : Cell) (r : List Cell) : Except YamlError Scanner := do
  let s ← s.dropKey
  let form := if c.char = '>' then .folded else .literal
  let (text, after) ← block (form == .folded) s.indent r
  return { s.emit (.scalar (String.ofList text) form) with keyAllowed := true, rest := after }

def beginsPlain (inFlow : Bool) (c : Char) (r : List Cell) : Bool :=
  let blankNext := endsWord r
  let spaceNext :=
    match r with
    | d :: _ => isSpace d.char
    | [] => false
  if c == '-' then !spaceNext
  else if c == '?' || c == ':' then !inFlow && !blankNext
  else !isSpaceOrBreak c && !",[]\x7b\x7d#&*!|>'\"%@\x60".toList.contains c

/-- **The next token**, at its first character. -/
def token (s : Scanner) (c : Cell) (r : List Cell) : Except YamlError Scanner :=
  let ch := c.char
  if c.column == 0 && ch == '%' then s.directive r
  else if isMarker '-' (c :: r) then s.marker .documentStart
  else if isMarker '.' (c :: r) then s.marker .documentEnd
  else if ch == '[' then s.openFlow c r .flowSequenceStart
  else if ch == '\x7b' then s.openFlow c r .flowMappingStart
  else if ch == ']' then s.closeFlow r .flowSequenceEnd
  else if ch == '\x7d' then s.closeFlow r .flowMappingEnd
  else if ch == ',' then s.flowEntry r
  else if ch == '-' && endsWord r then s.blockEntry c r
  else if ch == '?' && (s.inFlow || endsWord r) then s.explicitKey c r
  else if ch == ':' && (s.inFlow || endsWord r) then s.colon c r
  else if ch == '*' || ch == '&' then .error .alias
  else if ch == '!' then s.tag c r
  else if (ch == '|' || ch == '>') && !s.inFlow then s.blockScalar c r
  else if ch == '\'' || ch == '"' then s.quoted c r
  else if beginsPlain s.inFlow ch r then s.plainScalar c r
  else .error .strayCharacter

/-- The end of the text: every block collection ends, and no key is left without its colon. -/
def finish (s : Scanner) : Except YamlError (List Token) := do
  let s ← (s.closeBlocks (-1)).dropKey
  return s.tokens.toList

/-- **All tokens from here on.**  Every token takes at least one character. -/
def run (s : Scanner) : Except YamlError (List Token) :=
  let (keyAllowed, cells) := skipBlank s.inFlow s.keyAllowed false s.rest
  match cells with
  | [] => { s with keyAllowed }.finish
  | c :: r => do
    let s₁ ← { s with keyAllowed, rest := c :: r }.dropStaleKeys c
    let s₂ ← (s₁.closeBlocks c.column).token c r
    if s₂.rest.length < s.rest.length then s₂.run else throw .strayCharacter
termination_by s.rest.length

end Scanner

/-- **The tokens of a text.** -/
def tokens (text : String) : Except YamlError (List Token) := do
  Scanner.run { rest := ← cells text }

end Yaml
end SignalCatalog
