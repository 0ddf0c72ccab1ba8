import SignalCatalog.Value.Basic
/-!
# Which values have a YAML text

A value is written as a row of marks: its scalars and the beginnings and ends of its collections.  The beginning of a
mapping with one entry waits for the key, which may turn out to be a tag; a key that waits as well takes its place, and
the mapping ends without having begun.  A value has a text if every mark stands where it may.
-/
namespace SignalCatalog
namespace Yaml

/-- **Why a value has no YAML text.** -/
inductive WriteError where
  /-- A tag directly inside another. -/
  | nestedTags
  /-- A collection ends where a node is expected. -/
  | missingNode
  /-- A collection ends outside all collections. -/
  | missingDocument
  deriving DecidableEq, Repr

def WriteError.message : WriteError → String
  | nestedTags => "serializing nested enums in YAML is not supported yet"
  | missingNode => "expected SCALAR, SEQUENCE-START, MAPPING-START, or ALIAS"
  | missingDocument => "expected DOCUMENT-START or STREAM-END"

/-- **What comes next in an open collection.** -/
inductive Slot where
  | item
  | key
  | value
  deriving DecidableEq, Repr

/-- **One step of writing a value.**  A collection begins and ends at the same slot. -/
inductive Mark where
  | scalar
  | first (slot : Slot)
  | last (slot : Slot)
  | innerTag
  deriving DecidableEq, Repr

/-- Whether the beginning of a mapping is lost, because its only key waits as well. -/
def losesFirst : List (Value × Value) → Bool
  | [(.tagged _ _, _)] => true
  | [(.mapping [_], _)] => true
  | _ => false

mutual
/-- **The marks of a value**; a mapping does not wait for its key if it is tagged. -/
def marks (isTagged : Bool) : Value → List Mark
  | .list items => .first .item :: itemMarks items ++ [.last .item]
  | .mapping entries =>
    (if !isTagged && losesFirst entries then [] else [.first .key]) ++ entryMarks entries ++ [.last .key]
  | .tagged _ v => if isTagged then [.innerTag] else marks true v
  | _ => [.scalar]
termination_by structural v => v

def itemMarks : List Value → List Mark
  | [] => []
  | v :: r => marks false v ++ itemMarks r
termination_by structural l => l

def entryMarks : List (Value × Value) → List Mark
  | [] => []
  | (k, v) :: r => marks false k ++ marks false v ++ entryMarks r
termination_by structural l => l
end

/-- The open collections, the innermost first, when a node has been put into one. -/
def advance : List Slot → List Slot
  | [] => []
  | .item :: r => .item :: r
  | .key :: r => .value :: r
  | .value :: r => .key :: r

/-- **A mark put where the open collections tell.** -/
def place (opened : List Slot) : Mark → Except WriteError (List Slot)
  | .scalar => .ok (advance opened)
  | .first slot => .ok (slot :: advance opened)
  | .last slot =>
    match opened with
    | [] => .error .missingDocument
    | next :: r => if next = slot then .ok r else .error .missingNode
  | .innerTag => .error .nestedTags

/-- **Whether a value has a YAML text.** -/
def checkWritable (v : Value) : Except WriteError Unit := do
  let _ ← (marks false v).foldlM place []

end Yaml
end SignalCatalog
