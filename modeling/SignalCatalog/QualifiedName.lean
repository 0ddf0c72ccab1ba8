import SignalCatalog.Text.Blank
/-!
# Qualified names

A node is named by the dotted path from the root: `Vehicle.Cabin.Door`.  The segments of a name are what stands between
the dots, empty segments included; everything else about names is said with segments.
-/
namespace SignalCatalog
namespace QualifiedName

def segments (name : String) : List String := (Text.splitOn '.' name.toList).map String.ofList

def joinWith (separator : String) (names : List String) : String :=
  String.ofList (Text.joinWith separator.toList (names.map String.toList))

def ofSegments (names : List String) : String := joinWith "." names

def isQualified (name : String) : Bool := name.toList.contains '.'

def depth (name : String) : Nat := name.toList.count '.'

/-- **What stands before the last dot**, if there is one. -/
def parent? (name : String) : Option String :=
  if isQualified name then some (ofSegments (segments name).dropLast) else none

def last (name : String) : String := (segments name).getLast?.getD ""

def child (parent name : String) : String := parent ++ "." ++ name

/-- The names of the shorter and shorter beginnings of a path given from its end. -/
def shorter : List String → List String
  | [] => []
  | [_] => []
  | _ :: rest => ofSegments rest.reverse :: shorter rest

/-- **All ancestors of a name**, nearest first. -/
def ancestors (name : String) : List String := shorter (segments name).reverse

end QualifiedName
end SignalCatalog
