import SignalCatalog.Text.Quoted
import SignalCatalog.Value.Basic
/-!
# Values inside messages

The text by which a message names a value that is no string: `Number(5)`, `String("x")`, `Mapping` with its entries in
braces, where a key that is a boolean, a number or a string loses its wrapper.
-/
namespace SignalCatalog
namespace Value

mutual
/-- **A value as messages show it.** -/
def inspect : Value → String
  | .null => "Null"
  | .bool b => "Bool(" ++ (if b then "true" else "false") ++ ")"
  | .number n => "Number(" ++ n.text ++ ")"
  | .string s => "String(" ++ Text.quoted s ++ ")"
  | .list items => "Sequence [" ++ ", ".intercalate (inspectItems items) ++ "]"
  | .mapping entries => "Mapping \x7b" ++ ", ".intercalate (inspectEntries entries) ++ "\x7d"
  | .tagged tag v => "TaggedValue \x7b tag: " ++ tag.text ++ ", value: " ++ inspect v ++ " \x7d"
termination_by structural v => v

def inspectItems : List Value → List String
  | [] => []
  | v :: r => inspect v :: inspectItems r
termination_by structural l => l

def inspectEntries : List (Value × Value) → List String
  | [] => []
  | (k, v) :: r =>
    let key :=
      match k with
      | .bool b => if b then "true" else "false"
      | .number n => n.text
      | .string s => Text.quoted s
      | k => inspect k
    (key ++ ": " ++ inspect v) :: inspectEntries r
termination_by structural l => l
end

end Value
end SignalCatalog
