import SignalCatalog.Yaml.Token
/-!
# Nodes

A document as a tree of nodes, which still know how each scalar was written.  A collection ends at its closing token; a
sequence whose dashes stand at the column of the key above it has no tokens of its own and ends where its dashes do.
-/
namespace SignalCatalog
namespace Yaml

/-- **A node of a document.** -/
inductive Node where
  | scalar (tag : Option NodeTag) (form : ScalarForm) (text : String)
  | sequence (tag : Option NodeTag) (items : List Node)
  | mapping (tag : Option NodeTag) (entries : List (Node × Node))
  deriving Repr, Inhabited

namespace Node

def empty (tag : Option NodeTag) : Node := .scalar tag .plain ""

abbrev Reading := Except YamlError (Node × List Token)

/-- Whether no node stands here before the next entry or the end of a block sequence. -/
def noItem : List Token → Bool
  | .blockEntry :: _ => true
  | .blockEnd :: _ => true
  | _ => false

/-- Whether no node stands here before the next part or the end of a block mapping. -/
def noField : List Token → Bool
  | .key :: _ => true
  | .value :: _ => true
  | .blockEnd :: _ => true
  | _ => false

/-- Whether no node stands here before the next part or the end of a flow collection. -/
def noFlowPart : List Token → Bool
  | .value :: _ => true
  | .flowEntry :: _ => true
  | .flowSequenceEnd :: _ => true
  | .flowMappingEnd :: _ => true
  | _ => false

mutual

/-- **A node**, with the tag in front of it.  Block collections may begin here if `inBlock`, and a sequence without
tokens of its own if `dashes`. -/
def read (inBlock dashes : Bool) (ts : List Token) : Reading :=
  match ts with
  | .tag t :: r => content inBlock dashes (some t) r
  | ts => content inBlock dashes none ts
termination_by 6 * ts.length + 2
decreasing_by all_goals ((try simp only [List.length_cons]); omega)

/-- What stands behind a node's tag; with a tag it may be nothing. -/
def content (inBlock dashes : Bool) (tag : Option NodeTag) (ts : List Token) : Reading :=
  match ts with
  | .scalar text form :: r => .ok (.scalar tag form text, r)
  | .flowSequenceStart :: r => flowSequence tag [] r
  | .flowMappingStart :: r => flowMapping tag [] r
  | .blockSequenceStart :: r => if inBlock then blockSequence tag [] r else .error .missingNode
  | .blockMappingStart :: r => if inBlock then blockMapping tag [] r else .error .missingNode
  | .blockEntry :: r =>
    if dashes then dashSequence tag [] (.blockEntry :: r)
    else if tag.isSome then .ok (empty tag, .blockEntry :: r)
    else .error .missingNode
  | ts => if tag.isSome then .ok (empty tag, ts) else .error .missingNode
termination_by 6 * ts.length + 1
decreasing_by all_goals (simp only [List.length_cons]; omega)

def blockSequence (tag : Option NodeTag) (items : List Node) (ts : List Token) : Reading :=
  match ts with
  | .blockEnd :: r => .ok (.sequence tag items, r)
  | .blockEntry :: r =>
    if noItem r then blockSequence tag (items ++ [empty none]) r
    else do
      let (n, r') ← read true false r
      if r'.length < r.length + 1 then blockSequence tag (items ++ [n]) r' else throw .missingEntry
  | _ => .error .missingEntry
termination_by 6 * ts.length
decreasing_by all_goals (simp only [List.length_cons]; omega)

/-- A sequence without tokens of its own; it ends where no dash follows. -/
def dashSequence (tag : Option NodeTag) (items : List Node) (ts : List Token) : Reading :=
  match ts with
  | .blockEntry :: r =>
    if noItem r || noField r then dashSequence tag (items ++ [empty none]) r
    else do
      let (n, r') ← read true false r
      if r'.length < r.length + 1 then dashSequence tag (items ++ [n]) r' else throw .missingEntry
  | ts => .ok (.sequence tag items, ts)
termination_by 6 * ts.length
decreasing_by all_goals (simp only [List.length_cons]; omega)

/-- The entries of a block mapping, from a key's token on. -/
def blockMapping (tag : Option NodeTag) (entries : List (Node × Node)) (ts : List Token) : Reading :=
  match ts with
  | .blockEnd :: r => .ok (.mapping tag entries, r)
  | .key :: r => do
    let (k, r₁) ← if noField r then pure (empty none, r) else read true true r
    if r₁.length < r.length + 1 then
      let (v, r₂) ← blockValue r₁
      if r₂.length < r.length + 1 then blockMapping tag (entries ++ [(k, v)]) r₂ else throw .missingKey
    else throw .missingKey
  | _ => .error .missingKey
termination_by 6 * ts.length
decreasing_by all_goals (simp only [List.length_cons]; omega)

/-- The value of a block mapping's key, which may be missing. -/
def blockValue (ts : List Token) : Reading :=
  match ts with
  | .value :: r => if noField r then .ok (empty none, r) else read true true r
  | ts => .ok (empty none, ts)
termination_by 6 * ts.length
decreasing_by all_goals (simp only [List.length_cons]; omega)

/-- The entries of a flow sequence, behind its bracket or a comma. -/
def flowSequence (tag : Option NodeTag) (items : List Node) (ts : List Token) : Reading :=
  match ts with
  | .flowSequenceEnd :: r => .ok (.sequence tag items, r)
  | ts => do
    let (n, r) ← flowItem ts
    match r with
    | .flowSequenceEnd :: r' => return (.sequence tag (items ++ [n]), r')
    | .flowEntry :: r' => if r'.length < ts.length then flowSequence tag (items ++ [n]) r' else throw .missingEntry
    | _ => throw .missingEntry
termination_by 6 * ts.length + 5
decreasing_by all_goals omega

/-- An entry of a flow sequence; one with a colon is a mapping of its own.  Where a question mark has no key behind it,
the mark that stands there is passed over. -/
def flowItem (ts : List Token) : Reading :=
  match ts with
  | .key :: .value :: r => keylessItem r
  | .key :: .flowEntry :: r => keylessItem r
  | .key :: .flowSequenceEnd :: r => keylessItem r
  | .key :: r => do
    let (k, v, r') ← flowPair (.key :: r)
    return (.mapping none [(k, v)], r')
  | ts => read false false ts
termination_by 6 * ts.length + 4
decreasing_by all_goals ((try simp only [List.length_cons]); omega)

def keylessItem (ts : List Token) : Reading := do
  let (v, r) ← flowValue ts
  return (.mapping none [(empty none, v)], r)
termination_by 6 * ts.length + 1
decreasing_by all_goals omega

/-- The entries of a flow mapping, behind its brace or a comma. -/
def flowMapping (tag : Option NodeTag) (entries : List (Node × Node)) (ts : List Token) : Reading :=
  match ts with
  | .flowMappingEnd :: r => .ok (.mapping tag entries, r)
  | ts => do
    let (k, v, r) ← flowPair ts
    match r with
    | .flowMappingEnd :: r' => return (.mapping tag (entries ++ [(k, v)]), r')
    | .flowEntry :: r' =>
      if r'.length < ts.length then flowMapping tag (entries ++ [(k, v)]) r' else throw .missingEntry
    | _ => throw .missingEntry
termination_by 6 * ts.length + 5
decreasing_by all_goals omega

/-- A key and its value; a node that no colon follows is a key without a value. -/
def flowPair (ts : List Token) : Except YamlError (Node × Node × List Token) :=
  match ts with
  | .key :: r => do
    let (k, r₁) ← if noFlowPart r then pure (empty none, r) else read false false r
    if r₁.length < r.length + 1 then
      let (v, r₂) ← flowValue r₁
      return (k, v, r₂)
    else throw .missingEntry
  | ts => do
    let (k, r) ← read false false ts
    return (k, empty none, r)
termination_by 6 * ts.length + 3
decreasing_by all_goals ((try simp only [List.length_cons]); omega)

/-- The value of a key of a flow mapping, which may be missing. -/
def flowValue (ts : List Token) : Reading :=
  match ts with
  | .value :: r => if noFlowPart r then .ok (empty none, r) else read false false r
  | ts => .ok (empty none, ts)
termination_by 6 * ts.length
decreasing_by all_goals (simp only [List.length_cons]; omega)

end

def onlyEnds : List Token → Bool
  | [] => true
  | .documentEnd :: r => onlyEnds r
  | _ => false

/-- The node of a document's body, which may be missing. -/
def body (ts : List Token) : Reading :=
  match ts with
  | .directive :: _ => .ok (empty none, ts)
  | .documentStart :: _ => .ok (empty none, ts)
  | .documentEnd :: _ => .ok (empty none, ts)
  | [] => .ok (empty none, [])
  | ts => read true false ts

/-- **The only document of a token list**: none if there are no tokens at all.  Behind directives it has to be begun by
its mark. -/
def ofTokens (ts : List Token) : Except YamlError (Option Node) := do
  match ts, ts.dropWhile (· == .directive) with
  | [], _ => return none
  | _, .documentStart :: r => finish (← body r)
  | .directive :: _, _ => throw .badDirective
  | ts, _ => finish (← read true false ts)
where
  finish (reading : Node × List Token) : Except YamlError (Option Node) :=
    if onlyEnds reading.2 then .ok (some reading.1) else .error .severalDocuments

/-- **The only document of a text.** -/
def ofText (text : String) : Except YamlError (Option Node) := do ofTokens (← tokens text)

end Node
end Yaml
end SignalCatalog
