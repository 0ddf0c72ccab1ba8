import SignalCatalog.Text.Percent
import SignalCatalog.Value.Mapping
import SignalCatalog.Yaml.Resolve
import SignalCatalog.Yaml.Source
import SignalCatalog.Yaml.Writable
/-!
# From a value to YAML text

Block style throughout: two spaces for each level, sequences at the column of their key, `[]` and `\x7b\x7d` for empty
collections, no folding.  A string is plain where it may be; one with a line feed is a literal block; one that would be
read as something else stands between single quotes; one with characters that cannot be shown stands between double
quotes.
-/
namespace SignalCatalog
namespace Yaml

/-! ## Scalars -/

/-- How a scalar is written. -/
inductive Style where
  | plain
  | single
  | double
  | literal
  deriving DecidableEq, Repr

def isShown (c : Char) : Bool :=
  let n := c.toNat
  n == 10 || (decide (0x20 ≤ n) && decide (n ≤ 0x7E)) || (decide (0xA0 ≤ n) && decide (n ≤ 0xFFFD) && n != 0xFEFF) ||
    decide (0x10000 ≤ n)

/-- Whether two characters of a kind stand next to each other. -/
def hasAdjacent (p q : Char → Bool) : List Char → Bool
  | a :: b :: r => (p a && q b) || hasAdjacent p q (b :: r)
  | _ => false

/-- Whether a text's first characters keep it from being plain. -/
def beginsWithIndicator : List Char → Bool
  | [] => false
  | c :: r =>
    let endsHere :=
      match r with
      | [] => true
      | d :: _ => isSpaceOrBreak d
    "#,[]\x7b\x7d&*!|>'\"%@\x60".toList.contains c || ((c == '?' || c == ':' || c == '-') && endsHere) ||
      "---".toList.isPrefixOf (c :: r) || "...".toList.isPrefixOf (c :: r)

def hasColonEnd : List Char → Bool
  | [] => false
  | c :: r =>
    let endsHere :=
      match r with
      | [] => true
      | d :: _ => isSpaceOrBreak d
    (c == ':' && endsHere) || hasColonEnd r

/-- Whether a text holds what a reader would take for the end of a plain scalar: a colon that ends a word, or
a comment. -/
def hasIndicator (cs : List Char) : Bool := hasColonEnd cs || hasAdjacent isSpaceOrBreak (· == '#') cs

def isEndBlank (c : Option Char) : Bool := c.any fun c => c == ' ' || isBreak c

/-- Whether every character may stand for itself and no space ends a line. -/
def isClean (cs : List Char) : Bool := cs.all isShown && !hasAdjacent (· == ' ') isBreak cs

def allowsPlain (cs : List Char) : Bool :=
  isClean cs && !cs.any isBreak && !isEndBlank cs.head? && !isEndBlank cs.getLast? && !beginsWithIndicator cs &&
    !hasIndicator cs

def allowsSingle (cs : List Char) : Bool := isClean cs && !hasAdjacent isBreak (· == ' ') cs

def allowsLiteral (cs : List Char) : Bool := !cs.isEmpty && isClean cs && cs.getLast? != some ' '

/-- Whether a string that is written plain would not be read as that string. -/
def needsQuotes (s : String) : Bool :=
  isPaddedDigits s.toList ||
    match resolve s with
    | .text => false
    | _ => true

/-- **The style of a string.** -/
def styleOf (s : String) : Style :=
  let cs := s.toList
  if cs.contains '\n' then (if allowsLiteral cs then .literal else .double)
  else if !needsQuotes s && allowsPlain cs then .plain
  else if allowsSingle cs then .single
  else .double

/-- The name of a character that has a one-letter escape. -/
def escapeName? (c : Char) : Option Char :=
  match c.toNat with
  | 0 => some '0'
  | 7 => some 'a'
  | 8 => some 'b'
  | 9 => some 't'
  | 10 => some 'n'
  | 11 => some 'v'
  | 12 => some 'f'
  | 13 => some 'r'
  | 27 => some 'e'
  | 34 => some '"'
  | 92 => some '\\'
  | 0x85 => some 'N'
  | 0xA0 => some '_'
  | 0x2028 => some 'L'
  | 0x2029 => some 'P'
  | _ => none

def escape (c : Char) : List Char :=
  if isShown c && !isBreak c && c != '"' && c != '\\' then [c]
  else
    match escapeName? c with
    | some name => ['\\', name]
    | none =>
      let n := c.toNat
      if n ≤ 0xFF then '\\' :: 'x' :: Text.hexDigits 2 n
      else if n ≤ 0xFFFF then '\\' :: 'u' :: Text.hexDigits 4 n
      else '\\' :: 'U' :: Text.hexDigits 8 n

def spaces (n : Nat) : List Char := List.replicate n ' '

/-- **The header of a literal block**: a digit when the text begins with white space, and how its end is kept. -/
def literalHeader (cs : List Char) : List Char :=
  let hint := if cs.head?.any isSpaceOrBreak && cs.head? != some '\t' then ['2'] else []
  let chomp :=
    match cs.reverse with
    | last :: before =>
      if !isBreak last then ['-'] else if before.head?.all isBreak then ['+'] else []
    | [] => ['-']
  '|' :: hint ++ chomp

/-- The lines of a literal block, each that is not empty behind its indentation. -/
def literalLines (indent : Nat) (atStart : Bool) : List Char → List Char
  | [] => []
  | c :: r =>
    if isBreak c then c :: literalLines indent true r
    else (if atStart then spaces indent else []) ++ c :: literalLines indent false r

/-- The text between single quotes: a quote is written twice, and a line that a separator has begun is indented. -/
def singleText (indent : Nat) (atStart : Bool) : List Char → List Char
  | [] => if atStart then spaces indent else []
  | c :: r =>
    if isBreak c then c :: singleText indent true r
    else (if atStart then spaces indent else []) ++ (if c = '\'' then ['\'', '\''] else [c]) ++
      singleText indent false r

/-- A scalar in its style; the further lines of one that has several are indented by `indent`. -/
def scalarText (indent : Nat) (style : Style) (cs : List Char) : List Char :=
  match style with
  | .plain => cs
  | .single => '\'' :: singleText indent false cs ++ ['\'']
  | .double => '"' :: cs.flatMap escape ++ ['"']
  | .literal => literalHeader cs ++ '\n' :: literalLines indent true cs

/-! ## Collections -/

/-- **What stands before a node**: nothing, a dash or the mark of an explicit key or value, or a key's colon. -/
inductive Position where
  | start
  | mark
  | explicit
  | colon
  deriving DecidableEq, Repr

def Position.gap : Position → List Char
  | .start => []
  | _ => [' ']

/-- The text of a value that is no collection, and its style. -/
def scalar? : Value → Option (Style × List Char)
  | .null => some (.plain, "null".toList)
  | .bool b => some (.plain, (if b then "true" else "false").toList)
  | .number n => some (.plain, n.text.toList)
  | .string s => some (styleOf s, s.toList)
  | _ => none

/-- A character that ends a line on some system or other. -/
def endsLine (c : Char) : Bool := isBreak c || c == '\r' || c.toNat == 0x85

def tagSpelling (t : Tag) : List Char :=
  match t.name.toList with
  | '!' :: r => '!' :: r
  | cs => '!' :: cs

/-- A character that may stand for itself in a tag. -/
def isKeptInTag (c : Char) : Bool := c.isAlphanum || "_-;/?:@&=+$,.~*'()[]".toList.contains c

/-- **A tag**, percent-encoded behind its mark; the mark alone has to be written in full. -/
def tagText (t : Tag) : List Char :=
  match tagSpelling t with
  | ['!'] => "!<%21>".toList
  | cs => '!' :: Text.Percent.encode isKeptInTag (cs.drop 1)

/-- **A simple key** stands on one line with at most a hundred and twenty-eight bytes, its tag among them. -/
def isSimpleKey : Value → Bool
  | .tagged t v => fits (String.ofList (tagSpelling t)).utf8ByteSize v
  | v => fits 0 v
where
  fits (used : Nat) (v : Value) : Bool :=
    match scalar? v with
    | some (_, cs) => !cs.any endsLine && decide (used + (String.ofList cs).utf8ByteSize ≤ 128)
    | none =>
      match v with
      | .list items => items.isEmpty && decide (used ≤ 128)
      | .mapping entries => entries.isEmpty && decide (used ≤ 128)
      | _ => false

def newLine (column : Nat) : List Char := '\n' :: spaces column

/-- The column of a collection inside one at `indent`, which is `-1` outside all. -/
def inner (indent : Int) : Nat := if indent < 0 then 0 else (indent + 2).toNat

def endLine (cs : List Char) : List Char := if cs.getLast?.any isBreak then cs else cs ++ ['\n']

/-- The entries of a collection, each but the first on a line of its own at the collection's column. -/
def joinEntries (column : Nat) : List (List Char) → List Char
  | [] => []
  | [e] => e
  | e :: r => endLine e ++ spaces column ++ joinEntries column r

/-- Where the first entry of a collection begins: on the line of its mark, or on the next. -/
def opening (position : Position) (tagged : Bool) (column : Nat) : List Char :=
  match position, tagged with
  | .start, _ => []
  | .colon, _ => newLine column
  | _, true => newLine column
  | _, false => [' ']

/-- The column of a sequence: that of the key before it, or further in. -/
def dashColumn (indent : Int) (position : Position) (tagged : Bool) : Nat :=
  if position == .colon || (position == .explicit && tagged) then indent.toNat else inner indent

/-- A key and its value: behind a colon, or behind marks of their own. -/
def entryText (column : Nat) (simple : Bool) (key value : List Char) : List Char :=
  if simple then key ++ ':' :: value else endLine ('?' :: key) ++ spaces column ++ ':' :: value

mutual
/-- **A node behind its mark**, in a collection at column `indent`. -/
def node (indent : Int) (position : Position) (tagged : Bool) : Value → List Char
  | .null => position.gap ++ "null".toList
  | .bool b => position.gap ++ (if b then "true" else "false").toList
  | .number n => position.gap ++ n.text.toList
  | .string s =>
    let width := if indent < 0 then 2 else (indent + 2).toNat
    position.gap ++ scalarText width (styleOf s) s.toList
  | .list items =>
    if items.isEmpty then position.gap ++ "[]".toList
    else
      let column := dashColumn indent position tagged
      opening position tagged column ++ joinEntries column (itemTexts column items)
  | .mapping entries =>
    if entries.isEmpty then position.gap ++ "\x7b\x7d".toList
    else
      let column := inner indent
      opening position tagged column ++ joinEntries column (entryTexts column entries)
  | .tagged t v =>
    let below := if position == .start then .mark else position
    position.gap ++ tagText t ++ node indent below true v
termination_by structural v => v

def itemTexts (column : Nat) : List Value → List (List Char)
  | [] => []
  | v :: r => ('-' :: node column .mark false v) :: itemTexts column r
termination_by structural l => l

def entryTexts (column : Nat) : List (Value × Value) → List (List Char)
  | [] => []
  | (k, v) :: r =>
    let simple := isSimpleKey k
    let key := node column (if simple then .start else .explicit) false k
    let value := node column (if simple then .colon else .explicit) false v
    entryText column simple key value :: entryTexts column r
termination_by structural l => l
end

/-- **The text of a document**, which ends its last line. -/
def write (v : Value) : Except WriteError String := do
  checkWritable v
  return String.ofList (endLine (node (-1) .start false v))

end Yaml
end SignalCatalog
