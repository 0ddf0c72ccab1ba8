import SignalCatalog.Text.Hex
import SignalCatalog.Yaml.Source
/-!
# Scalars in source text

The three ways to write a scalar: plain, between quotes, and as an indented block.  Each reader takes the text behind
the scalar's first mark and gives the scalar's own text and what follows it.
-/
namespace SignalCatalog
namespace Yaml

/-- **The form a scalar is written in.** -/
inductive ScalarForm where
  | plain
  | quoted
  | literal
  | folded
  deriving DecidableEq, Repr

/-- What follows the rest of a line, which holds nothing but spaces and a comment. -/
def restOfLine (error : YamlError) (cs : List Cell) : Except YamlError (List Cell) :=
  let afterSpaces := cs.dropWhile fun c : Cell => isSpace c.char
  let afterComment :=
    match afterSpaces with
    | c :: _ => if c.char = '#' then afterSpaces.dropWhile (fun c : Cell => !isBreak c.char) else afterSpaces
    | [] => []
  match afterComment with
  | [] => .ok []
  | c :: r => if isBreak c.char then .ok r else .error error

/-! ## Plain scalars -/

def isFlowIndicator (c : Char) : Bool := c == ',' || c == '[' || c == ']' || c == '\x7b' || c == '\x7d'

/-- Whether a plain scalar ends before this character: a colon that ends a word, or a mark of a flow collection. -/
def endsPlain (inFlow : Bool) (c : Char) (rest : List Cell) : Bool :=
  (c == ':' && endsWord rest) || (inFlow && isFlowIndicator c)

/-- A colon directly before a mark of a flow collection, inside one. -/
def isGluedColon (inFlow : Bool) (c : Char) (rest : List Cell) : Bool :=
  inFlow && c == ':' &&
    match rest with
    | d :: _ => isFlowIndicator d.char || d.char == '?'
    | [] => false

/-- Whether a plain scalar goes no further at the first character behind a gap: it stands too far left, a document
begins or ends there, or it is a comment. -/
def stopsAfterGap (inFlow : Bool) (indent : Nat) (c : Cell) (rest : List Cell) : Bool :=
  (!inFlow && decide (c.column < indent)) || atMarker (c :: rest) || c.char == '#'

/-- **A plain scalar**: words joined over gaps, on lines indented at least `indent`.  The answer says whether a line
ended behind the last word. -/
def plain (inFlow : Bool) (indent : Nat) (text : List Char) (gap : Option Gap) :
    List Cell → Except YamlError (List Char × Bool × List Cell)
  | [] => .ok (text, gap.any (·.broken), [])
  | c :: r =>
    if isSpaceOrBreak c.char then
      let g := gap.getD {}
      if g.broken && c.char == '\t' && decide (c.column < indent) then .error .misplacedTab
      else plain inFlow indent text (some (g.push c.char)) r
    else if gap.isSome && stopsAfterGap inFlow indent c r then .ok (text, gap.any (·.broken), c :: r)
    else if isGluedColon inFlow c.char r then .error .misplacedColon
    else if endsPlain inFlow c.char r then .ok (text, gap.any (·.broken), c :: r)
    else plain inFlow indent (text ++ (gap.map Gap.text).getD [] ++ [c.char]) none r

/-! ## Quoted scalars -/

def escaped? : Char → Option Char
  | '0' => some (Char.ofNat 0)
  | 'a' => some (Char.ofNat 7)
  | 'b' => some (Char.ofNat 8)
  | 't' => some '\t'
  | '\t' => some '\t'
  | 'n' => some '\n'
  | 'v' => some (Char.ofNat 11)
  | 'f' => some (Char.ofNat 12)
  | 'r' => some '\r'
  | 'e' => some (Char.ofNat 27)
  | ' ' => some ' '
  | '"' => some '"'
  | '/' => some '/'
  | '\\' => some '\\'
  | 'N' => some (Char.ofNat 0x85)
  | '_' => some (Char.ofNat 0xA0)
  | 'L' => some (Char.ofNat 0x2028)
  | 'P' => some (Char.ofNat 0x2029)
  | _ => none

def escapeWidth? : Char → Option Nat
  | 'x' => some 2
  | 'u' => some 4
  | 'U' => some 8
  | _ => none

/-- The character of exactly `width` hexadecimal digits, unless they name none. -/
def hexChar? (width : Nat) (cs : List Cell) : Option Char :=
  let digits := cs.take width
  if digits.length < width then none
  else
    let code := digits.foldl (fun acc c => acc.bind fun n => (Text.hexValue? c.char).map (16 * n + ·)) (some 0)
    code.bind fun n => if n.isValidChar then some (Char.ofNat n) else none

/-- **A scalar between single quotes**, in which a quote is written twice. -/
def singleQuoted (text : List Char) (gap : Option Gap) : List Cell → Except YamlError (List Char × List Cell)
  | [] => .error .unclosedQuote
  | c :: r =>
    if atMarker (c :: r) then .error .unclosedQuote
    else if isSpaceOrBreak c.char then singleQuoted text (some ((gap.getD {}).push c.char)) r
    else
      let text := text ++ (gap.map Gap.text).getD []
      if c.char = '\'' then
        match r with
        | d :: r' => if d.char = '\'' then singleQuoted (text ++ ['\'']) none r' else .ok (text, d :: r')
        | [] => .ok (text, [])
      else singleQuoted (text ++ [c.char]) none r

/-- **A scalar between double quotes**, with backslash escapes; a backslash at the end of a line joins it to
the next. -/
def doubleQuoted (text : List Char) (gap : Option Gap) (cs : List Cell) : Except YamlError (List Char × List Cell) :=
  match cs with
  | [] => .error .unclosedQuote
  | c :: r =>
    if atMarker (c :: r) then .error .unclosedQuote
    else if isSpaceOrBreak c.char then doubleQuoted text (some ((gap.getD {}).push c.char)) r
    else
      let text := text ++ (gap.map Gap.text).getD []
      if c.char = '"' then .ok (text, r)
      else if c.char = '\\' then
        match r with
        | [] => .error .badEscape
        | d :: r' =>
          if isBreak d.char then doubleQuoted text (some { broken := true }) r'
          else
            match escaped? d.char, escapeWidth? d.char with
            | some e, _ => doubleQuoted (text ++ [e]) none r'
            | none, some width =>
              match hexChar? width r' with
              | some e => doubleQuoted (text ++ [e]) none (r'.drop width)
              | none => .error .badEscape
            | none, none => .error .badEscape
      else doubleQuoted (text ++ [c.char]) none r
termination_by cs.length
decreasing_by all_goals (simp only [List.length_cons, List.length_drop]; omega)

/-! ## Block scalars -/

/-- What is done with the line ends behind the last line of a block. -/
inductive Chomping where
  | clip
  | strip
  | keep
  deriving DecidableEq, Repr

/-- The header of a block: chomping and a digit for the indentation, in either order. -/
structure BlockHeader where
  chomping : Chomping := .clip
  increment : Option Nat := none

def chomping? : Char → Option Chomping
  | '+' => some .keep
  | '-' => some .strip
  | _ => none

/-- A digit of a block header, which must not be zero. -/
def incrementOf (c : Char) : Except YamlError Nat :=
  if c = '0' then .error .badBlockHeader else .ok (c.toNat - '0'.toNat)

def blockMarks (cs : List Cell) : Except YamlError (BlockHeader × List Cell) :=
  match cs with
  | [] => .ok ({}, [])
  | c :: r =>
    match chomping? c.char with
    | some ch =>
      match r with
      | d :: r' =>
        if d.char.isDigit then do return ({ chomping := ch, increment := some (← incrementOf d.char) }, r')
        else .ok ({ chomping := ch }, r)
      | [] => .ok ({ chomping := ch }, [])
    | none =>
      if c.char.isDigit then do
        let n ← incrementOf c.char
        match r with
        | d :: r' =>
          match chomping? d.char with
          | some ch => return ({ chomping := ch, increment := some n }, r')
          | none => return ({ increment := some n }, r)
        | [] => return ({ increment := some n }, [])
      else .ok ({}, cs)

/-- **A block being read**: its text, the break behind its last line, the empty lines since then, and whether that line
began with white space. -/
structure BlockText where
  text : List Char := []
  lineEnd : List Char := []
  emptyLines : List Char := []
  indented : Bool := false

namespace BlockText

/-- A new line begins with `c`.  In a folded block a single break between two lines that begin with no white space
becomes a space. -/
def startLine (b : BlockText) (folded : Bool) (c : Char) : BlockText :=
  let folds := folded && b.lineEnd == ['\n'] && !b.indented && !isSpace c
  let joint := if folds then (if b.emptyLines.isEmpty then [' '] else []) else b.lineEnd
  { text := b.text ++ joint ++ b.emptyLines, lineEnd := [], emptyLines := [], indented := isSpace c }

def finish (b : BlockText) : Chomping → List Char
  | .strip => b.text
  | .clip => b.text ++ b.lineEnd
  | .keep => b.text ++ b.lineEnd ++ b.emptyLines

end BlockText

/-- **The lines of a block.**  `least` is the least indentation a block may have here and `indent` its own, found at
the first line that is not empty as the widest indentation so far; `inLine` tells the inside of a line from its
indentation. -/
def blockLines (folded : Bool) (chomping : Chomping) (least : Nat) (indent : Option Nat) (widest : Nat) (inLine : Bool)
    (b : BlockText) : List Cell → Except YamlError (List Char × List Cell)
  | [] => .ok (b.finish chomping, [])
  | c :: r =>
    if inLine then
      if isBreak c.char then blockLines folded chomping least indent widest false { b with lineEnd := [c.char] } r
      else blockLines folded chomping least indent widest true { b with text := b.text ++ [c.char] } r
    else
      let before := indent.all fun n => decide (c.column < n)
      if before && c.char == ' ' then blockLines folded chomping least indent widest false b r
      else if before && c.char == '\t' then .error .misplacedTab
      else
        let widest := max widest c.column
        if isBreak c.char then
          blockLines folded chomping least indent widest false { b with emptyLines := b.emptyLines ++ [c.char] } r
        else
          let n := indent.getD (max widest least)
          if c.column = n then
            let b := b.startLine folded c.char
            blockLines folded chomping least (some n) widest true { b with text := b.text ++ [c.char] } r
          else .ok (b.finish chomping, c :: r)

/-- **A block scalar** below a node indented by `outer`, from behind its `|` or `>`. -/
def block (folded : Bool) (outer : Int) (cs : List Cell) : Except YamlError (List Char × List Cell) := do
  let (header, afterMarks) ← blockMarks cs
  let lines ← restOfLine .badBlockHeader afterMarks
  let base := outer.toNat
  let indent := header.increment.map fun n => if 0 ≤ outer then base + n else n
  blockLines folded header.chomping (max (outer + 1).toNat 1) indent 0 false {} lines

end Yaml
end SignalCatalog
