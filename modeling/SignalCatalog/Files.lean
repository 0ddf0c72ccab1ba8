import SignalCatalog.Text.Blank
/-!
# Files and paths

The files a run may read, as a value: a table from places to texts and directories, and the place of the working
directory.  Paths are texts joined as they are written, without normalisation; only looking a path up resolves its
segments, from the root if it is absolute and from the working directory if not, and follows the links on the way.  So a
place has many paths, but a file has one place.
-/
namespace SignalCatalog

inductive FileError where
  | missing
  | isDirectory
  | notDirectory
  | nameTooLong
  | tooManyLinks
  | invalidName
  deriving DecidableEq, Repr

def FileError.message : FileError → String
  | missing => "No such file or directory (os error 2)"
  | isDirectory => "Is a directory (os error 21)"
  | notDirectory => "Not a directory (os error 20)"
  | nameTooLong => "File name too long (os error 36)"
  | tooManyLinks => "Too many levels of symbolic links (os error 40)"
  | invalidName => "file name contained an unexpected NUL byte"

namespace Pathname

def isAbsolute (p : String) : Bool := p.toList.head? == some '/'

def pieces (p : String) : List String := (Text.splitOn '/' p.toList).map String.ofList

/-- **What a path is compared by**: its pieces without the empty ones and without every `.` but a leading one. -/
def components (p : String) : List String :=
  let named := (pieces p).drop 1 |>.filter fun s => s != "" && s != "."
  match pieces p with
  | first :: _ => if first = "" then named else first :: named
  | [] => named

/-- Whether two paths are written alike, repeated and trailing slashes and inner dots aside. -/
def alike (p q : String) : Bool := isAbsolute p == isAbsolute q && components p == components q

/-- **One path below another.**  An absolute path replaces the first, and nothing joins as nothing. -/
def join (dir p : String) : String :=
  if isAbsolute p || dir = "" then p
  else if dir.toList.getLast? = some '/' then dir ++ p
  else dir ++ "/" ++ p

/-- Trailing slashes and trailing `/.` taken off, from the end of the reversed path. -/
def trimEndReversed : List Char → List Char
  | ['/'] => ['/']
  | '/' :: r => trimEndReversed r
  | '.' :: '/' :: r => trimEndReversed ('/' :: r)
  | r => r

/-- **The directory a path stands in**: the path up to its last component; a lone name stands in the empty path, and the
empty path and the root stand in nothing. -/
def parent? (p : String) : Option String :=
  match trimEndReversed p.toList.reverse with
  | [] => none
  | ['/'] => none
  | name =>
    let rest := name.dropWhile (· != '/')
    some (String.ofList (trimEndReversed rest).reverse)

end Pathname

/-- A place: the names on the way to it from the root. -/
abbrev Place := List String

/-- What stands at a place. -/
inductive FileEntry where
  | text (content : String)
  | directory
  | link (target : String)
  deriving DecidableEq, Repr

/-- **The files of a run.** -/
structure Files where
  entries : List (Place × FileEntry) := []
  /-- The working directory, which is there whatever the entries are. -/
  workdir : Place := []
  deriving Repr, Inhabited

namespace Files

/-- Where a path begins that is met in a directory: an absolute one at the root, and any other there. -/
def origin (here : Place) (p : String) : Place := if Pathname.isAbsolute p then [] else here

/-- The place of a path that is written without `..`. -/
def placeOf (workdir : Place) (p : String) : Place :=
  origin workdir p ++ (Pathname.pieces p).filter fun s => s != "" && s != "."

def ofPaths (workdir : Place) (files : List (String × FileEntry)) : Files :=
  ⟨files.map fun f => (placeOf workdir f.1, f.2), workdir⟩

/-- **What stands at a place**: an entry, or a directory because the working directory or an entry is there or
below it. -/
def at? (f : Files) (place : Place) : Option FileEntry :=
  match f.entries.find? fun e => e.1 == place with
  | some e => some e.2
  | none =>
    if place.isPrefixOf f.workdir || f.entries.any (fun e => place.isPrefixOf e.1) then some .directory else none

/-- A text stands only where there is an entry. -/
theorem mem_of_at?_text {f : Files} {place : Place} {content : String} (h : f.at? place = some (.text content)) :
    (place, .text content) ∈ f.entries := by
  unfold at? at h
  split at h
  · next e he =>
    have hp := List.find?_some he
    have hm := List.mem_of_find?_eq_some he
    obtain ⟨p, x⟩ := e
    simp only [beq_iff_eq] at hp
    simp only [Option.some.injEq] at h
    exact hp ▸ h ▸ hm
  · split at h <;> simp at h

/-- A name has at most two hundred and fifty-five bytes. -/
def isLongName (name : String) : Bool := decide (255 < name.utf8ByteSize)

/-- What comes of following a path up to the first link on it. -/
inductive Leg where
  | arrived (place : Place)
  /-- From the place where the target of the link begins, its pieces and those that are left are still to be
  followed. -/
  | linked (start : Place) (rest : List String)

/-- Pieces of a path followed from `here` up to the first link: `..` goes up, and no further than the root; an empty
piece and `.` stay in a directory. -/
def along (f : Files) (here : Place) : List String → Except FileError Leg
  | [] => .ok (.arrived here)
  | piece :: rest =>
    match f.at? here with
    | none => .error .missing
    | some .directory =>
      if piece = "" ∨ piece = "." then f.along here rest
      else if piece = ".." then f.along here.dropLast rest
      else if isLongName piece then .error .nameTooLong
      else match f.at? (here ++ [piece]) with
        | some (.link target) => .ok (.linked (origin here target) (Pathname.pieces target ++ rest))
        | _ => f.along (here ++ [piece]) rest
    | some _ => .error .notDirectory

/-- The place reached from `here` along pieces of a path, over so many links at most. -/
def walk (f : Files) (links : Nat) (here : Place) (pieces : List String) : Except FileError Place :=
  match f.along here pieces with
  | .error e => .error e
  | .ok (.arrived place) => .ok place
  | .ok (.linked start rest) =>
    match links with
    | 0 => .error .tooManyLinks
    | links + 1 => f.walk links start rest

/-- The links that one look-up follows. -/
def maxLinks : Nat := 40

/-- **Whether a path can be looked up at all**: it must not be empty, hold no NUL and have less than four thousand and
ninety-six bytes. -/
def checkPath (p : String) : Except FileError Unit :=
  if p.toList.contains (Char.ofNat 0) then .error .invalidName
  else if p = "" then .error .missing
  else if 4096 ≤ p.utf8ByteSize then .error .nameTooLong
  else .ok ()

/-- **The place a path leads to**, when something stands there.  The empty path leads nowhere. -/
def locate (f : Files) (p : String) : Except FileError Place := do
  checkPath p
  let place ← f.walk maxLinks (origin f.workdir p) (Pathname.pieces p)
  if (f.at? place).isSome then return place else throw .missing

def «exists» (f : Files) (p : String) : Bool :=
  match f.locate p with
  | .ok _ => true
  | .error _ => false

/-- **The text of the file a path leads to.** -/
def read (f : Files) (p : String) : Except FileError String := do
  match f.at? (← f.locate p) with
  | some (.text content) => .ok content
  | some _ => .error .isDirectory
  | none => .error .missing

/-- A text at a place, in the stead of what stood there. -/
def put (f : Files) (place : Place) (content : String) : Files :=
  { f with entries := (f.entries.filter fun e => e.1 != place) ++ [(place, .text content)] }

/-- **The files after a text is written** to a path, whose directory has to be there.  Behind a slash nothing can be
written, and nothing in the place of a directory. -/
def write (f : Files) (p content : String) : Except FileError Files := do
  checkPath p
  let start := origin f.workdir p
  let pieces := Pathname.pieces p
  let reversed := pieces.reverse.dropWhile (· == "")
  if reversed.length < pieces.length then
    let _ ← f.walk maxLinks start (if reversed.head?.any fun s => s = "." || s = ".." then pieces
      else reversed.tail.reverse ++ [""])
    throw .isDirectory
  else
    let place ← f.walk maxLinks start pieces
    if f.at? place = some .directory then throw .isDirectory else return f.put place content

end Files
end SignalCatalog
