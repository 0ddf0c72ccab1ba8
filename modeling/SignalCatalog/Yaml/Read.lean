import SignalCatalog.Value.Mapping
import SignalCatalog.Yaml.Node
import SignalCatalog.Yaml.Resolve
/-!
# From a document to a value

Plain scalars are resolved, all others are strings, named tags are kept and the tags of the core schema decide how a
scalar is read.  A mapping with the same key twice is refused, so `Yaml.read` gives mappings with each key once.
-/
namespace SignalCatalog
namespace Yaml

def plainValue (text : String) : Except YamlError Value :=
  match resolve text with
  | .null => .ok .null
  | .bool b => .ok (.bool b)
  | .number n => .ok (.number n)
  | .text => .ok (.string text)
  | .tooLarge => .error .integerTooLarge

/-- **A scalar under its tag.**  A name stands around the value there would be without it; a kind of scalar has to be
what the text is. -/
def scalarValue (tag : Option NodeTag) (form : ScalarForm) (text : String) : Except YamlError Value :=
  let untagged := if form = .plain then plainValue text else .ok (.string text)
  match tag with
  | none => untagged
  | some .nameless => untagged
  | some (.named name) => (Value.tagged (Tag.ofText name)) <$> untagged
  | some .text => .ok (.string text)
  | some .bool =>
    match resolve text with
    | .bool b => .ok (.bool b)
    | _ => .error .wrongTaggedScalar
  | some .int =>
    match resolve text with
    | .number (.int n) => .ok (.number (.int n))
    | _ => .error .wrongTaggedScalar
  | some .float =>
    match double? text.toList with
    | some x => .ok (.number (.float x))
    | none => .error .wrongTaggedScalar
  | some .null =>
    match resolve text with
    | .null => if text = "" then .error .wrongTaggedScalar else .ok .null
    | _ => .error .wrongTaggedScalar

/-- A collection under its tag; only a name is kept. -/
def tagCollection (tag : Option NodeTag) (v : Value) : Value :=
  match tag.bind NodeTag.name? with
  | some name => .tagged (Tag.ofText name) v
  | none => v

mutual
/-- **The value of a node**, with at most `depth` collections inside each other. -/
def value (depth : Nat) : Node → Except YamlError Value
  | .scalar tag form text => scalarValue tag form text
  | .sequence tag items =>
    if depth = 0 then .error .tooDeep
    else do return tagCollection tag (.list (← itemValues (depth - 1) items))
  | .mapping tag entries =>
    if depth = 0 then .error .tooDeep
    else do return tagCollection tag (.mapping (← entryValues (depth - 1) [] entries))
termination_by structural n => n

def itemValues (depth : Nat) : List Node → Except YamlError (List Value)
  | [] => .ok []
  | n :: r => do
    let v ← value depth n
    return v :: (← itemValues depth r)
termination_by structural l => l

/-- Entries added to a mapping; a key that is there already is an error. -/
def entryValues (depth : Nat) (m : Mapping) : List (Node × Node) → Except YamlError Mapping
  | [] => .ok m
  | (k, n) :: r => do
    let key ← value depth k
    if Mapping.contains m key then throw .duplicateKey
    let v ← value depth n
    entryValues depth (m ++ [(key, v)]) r
termination_by structural l => l
end

def maxDepth : Nat := 128

/-- **The value of a text**; an empty document is null. -/
def read (text : String) : Except YamlError Value := do
  match ← Node.ofText text with
  | none => return .null
  | some n => value maxDepth n

end Yaml
end SignalCatalog
