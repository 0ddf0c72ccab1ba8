import SignalCatalog.Spec.Load
/-!
# Short files

Texts whose tokens and nodes are known are read by evaluation, step by step: the tokens, the node, the value.  A file
without includes loads as what its text is read as.
-/
namespace SignalCatalog

variable {files : Files}

theorem Yaml.read_of_node {text : String} {ts : List Yaml.Token} {n : Yaml.Node} {v : Value}
    (htokens : Yaml.tokens text = .ok ts) (hnode : Yaml.Node.ofTokens ts = .ok (some n))
    (hvalue : Yaml.value Yaml.maxDepth n = .ok v) : Yaml.read text = .ok v := by
  rw [Yaml.read, Yaml.Node.ofText, htokens]
  exact (congrArg (· >>= _) hnode).trans hvalue

/-- **Nodes with plain fields**, as a file lists them. -/
abbrev Sheet := List (String × List (String × String))

namespace Sheet

def entryTokens (e : String × List (String × String)) : List Yaml.Token :=
  [.key, .scalar e.1 .plain, .value, .blockMappingStart] ++
    e.2.flatMap (fun f => [.key, .scalar f.1 .plain, .value, .scalar f.2 .plain]) ++ [.blockEnd]

def tokens (s : Sheet) : List Yaml.Token := .blockMappingStart :: s.flatMap entryTokens ++ [.blockEnd]

def node (s : Sheet) : Yaml.Node :=
  .mapping none (s.map fun e => (.scalar none .plain e.1,
    .mapping none (e.2.map fun f => (.scalar none .plain f.1, .scalar none .plain f.2))))

def entries (s : Sheet) : Mapping :=
  s.map fun e => (.string e.1, .mapping (e.2.map fun f => (.string f.1, .string f.2)))

end Sheet

theorem Spec.load_of_read {dirs : List String} {source content : String} {place : Place} {m : Mapping}
    (hplace : files.locate source = .ok place) (hat : files.at? place = some (.text content))
    (hread : Yaml.read content = .ok (.mapping m)) (hstatements : Include.statements content = []) :
    Spec.load files dirs source none = .ok ⟨source, none, m⟩ := by
  have hparse : parse content source = .ok m := by rw [parse, hread]
  rw [Spec.load, depthBound, loadWithin, hplace]
  dsimp only
  rw [hat, List.contains_nil, if_neg Bool.false_ne_true]
  dsimp only
  rw [hparse, hstatements]
  rfl

end SignalCatalog
