/-!
# Blanks, words and lines

Text is taken apart as lists of characters.  A blank is a character with the Unicode property of white space; `trim`,
`words` and `lines` are stated with it.
-/
namespace SignalCatalog
namespace Text

/-- **White space**, all of it: the six ASCII blanks and the nineteen beyond. -/
def isBlank (c : Char) : Bool :=
  c == ' ' || (decide (9 ≤ c.toNat) && decide (c.toNat ≤ 13)) || c.toNat == 0x85 ||
    c.toNat == 0xA0 || c.toNat == 0x1680 ||
    (decide (0x2000 ≤ c.toNat) && decide (c.toNat ≤ 0x200A)) || c.toNat == 0x2028 || c.toNat == 0x2029 ||
    c.toNat == 0x202F || c.toNat == 0x205F || c.toNat == 0x3000

def trimStart (cs : List Char) : List Char := cs.dropWhile isBlank
def trimEnd (cs : List Char) : List Char := (cs.reverse.dropWhile isBlank).reverse

def trim (cs : List Char) : List Char := trimEnd (trimStart cs)

/-- **The pieces between separators**: one more than there are separators, so never none. -/
def splitOn (sep : Char) : List Char → List (List Char)
  | [] => [[]]
  | c :: r =>
    if c = sep then [] :: splitOn sep r
    else match splitOn sep r with
      | [] => [[c]]
      | first :: others => (c :: first) :: others

theorem splitOn_ne_nil (sep : Char) : ∀ cs, splitOn sep cs ≠ []
  | [] => by simp [splitOn]
  | c :: r => by
    unfold splitOn
    split
    · simp
    · split <;> simp

def joinWith (sep : List Char) : List (List Char) → List Char
  | [] => []
  | [piece] => piece
  | piece :: others => piece ++ sep ++ joinWith sep others

/-- **The maximal runs of characters that are not blank.** -/
def words (cs : List Char) : List (List Char) :=
  let step := fun (c : Char) (acc : List Char × List (List Char)) =>
    if isBlank c then ([], if acc.1.isEmpty then acc.2 else acc.1 :: acc.2) else (c :: acc.1, acc.2)
  let (word, others) := cs.foldr step ([], [])
  if word.isEmpty then others else word :: others

/-- The lines of a text, without their line feeds and without a carriage return before one; no line after the last line
feed. -/
def lines (cs : List Char) : List (List Char) :=
  let pieces := splitOn '\n' cs
  let full := if pieces.getLast? = some [] then pieces.dropLast else pieces
  let ended := if pieces.getLast? = some [] then full.length else full.length - 1
  full.mapIdx fun i l => if i < ended ∧ l.getLast? = some '\r' then l.dropLast else l

end Text
end SignalCatalog
