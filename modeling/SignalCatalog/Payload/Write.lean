import SignalCatalog.Payload.Basic
/-!
# Writing a payload

A payload as a mapping.  The view for exporters leaves out the flags `delete` and `instantiate`; the raw form has them
where they differ from their defaults, so that it can be read back.
-/
namespace SignalCatalog
namespace Payload

def optional {α : Type} (key : String) (write : α → Value) : Option α → Mapping
  | some a => [(.string key, write a)]
  | none => []

/-- An entry for a list that is left out when it is empty. -/
def unlessEmpty {α : Type} (key : String) (write : List α → Value) (l : List α) : Mapping :=
  if l.isEmpty then [] else [(.string key, write l)]

def strings (l : List String) : Value := .list (l.map .string)

def datatypeEntries (f : DatatypeFields) : Mapping :=
  [(.string "datatype", .string f.datatype)] ++ optional "arraysize" (fun n : Nat => .number (.int n)) f.arraysize ++
    optional "min" .number f.min ++ optional "max" .number f.max ++ optional "unit" .string f.unit ++
    optional "allowed" .list f.allowed ++ optional "default" id f.default

/-- The entries of the fields, without the flags and the further attributes. -/
def fieldEntries (p : Payload) : Mapping :=
  [(.string "type", .string p.kind.name), (.string "description", .string p.common.description)] ++
    optional "comment" .string p.common.comment ++ (p.datatypeFields?.map datatypeEntries).getD [] ++
    optional "deprecation" .string p.common.deprecation ++ optional "constUID" .string p.common.constUid ++
    unlessEmpty "fka" strings p.common.fka ++ unlessEmpty "instances" Level.declaration p.instances

/-- **The view for exporters**, with or without the further attributes. -/
def view (p : Payload) (withExtra : Bool) : Mapping :=
  if withExtra then Mapping.extend p.fieldEntries p.common.extra else p.fieldEntries

/-- **The raw form**, which reads back as the payload. -/
def raw (p : Payload) : Mapping :=
  let m := p.view true
  let m := if p.common.delete then Mapping.put m "delete" (.bool true) else m
  if p.common.instantiate then m else Mapping.put m "instantiate" (.bool false)

end Payload
end SignalCatalog
