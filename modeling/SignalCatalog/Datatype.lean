import SignalCatalog.Value.Mapping
import SignalCatalog.QualifiedName
/-!
# Datatypes

Thirteen built-in scalar datatypes and the struct types registered while type files are read.  Each datatype also has an
array form, spelled with `[]` after its name.  The declared subtypes of a datatype only decide which datatypes a unit
may be given to; no value is ever converted.
-/
namespace SignalCatalog

/-- **The values of a scalar datatype.** -/
inductive TypeClass where
  | integer (signed : Bool) (bits : Nat)
  | boolean
  | float
  | string
  | numeric
  | struct
  deriving DecidableEq, Repr

namespace TypeClass

def inRange (signed : Bool) (bits : Nat) (n : Int) : Bool :=
  if signed then decide (-(Nat.pow 2 (bits - 1) : Int) ≤ n) && decide (n < Nat.pow 2 (bits - 1))
  else decide (0 ≤ n) && decide (n < Nat.pow 2 bits)

/-- Membership of one value.  A whole number is a float too. -/
def accepts : TypeClass → Value → Bool
  | integer signed bits, .number (.int n) => inRange signed bits n
  | boolean, .bool _ => true
  | float, .number _ => true
  | string, .string _ => true
  | numeric, .number _ => true
  | struct, .mapping _ => true
  | _, _ => false

end TypeClass

/-- **A scalar datatype**: its name, its values and its declared subtypes. -/
structure Datatype where
  name : String
  typeClass : TypeClass
  subtypes : List String
  deriving DecidableEq, Repr

namespace Datatype

def isArray (name : String) : Bool := "[]".toList.isSuffixOf name.toList

def base (name : String) : String :=
  if isArray name then String.ofList (name.toList.take (name.toList.length - 2)) else name

def arrayForm (name : String) : String := name ++ "[]"

def integerNames : List String := ["int16", "int32", "int64", "int8", "uint16", "uint32", "uint64", "uint8"]

/-- **The built-in datatypes**; subtypes are listed in alphabetical order. -/
def builtIn : List Datatype :=
  [⟨"uint8", .integer false 8, []⟩,
   ⟨"int8", .integer true 8, []⟩,
   ⟨"uint16", .integer false 16, ["uint8"]⟩,
   ⟨"int16", .integer true 16, ["int8", "uint8"]⟩,
   ⟨"uint32", .integer false 32, ["uint16", "uint8"]⟩,
   ⟨"int32", .integer true 32, ["int16", "int8", "uint16", "uint8"]⟩,
   ⟨"uint64", .integer false 64, ["uint16", "uint32", "uint8"]⟩,
   ⟨"int64", .integer true 64, ["int16", "int32", "int8", "uint16", "uint32", "uint8"]⟩,
   ⟨"boolean", .boolean, []⟩,
   ⟨"float", .float, integerNames⟩,
   ⟨"double", .float, "float" :: integerNames⟩,
   ⟨"string", .string, []⟩,
   ⟨"numeric", .numeric, "double" :: "float" :: integerNames⟩]

def ofStruct (name : String) : Datatype := ⟨name, .struct, []⟩

end Datatype

inductive DatatypeError where
  | unknownType (name : String)
  | invalidDynamicName (name : String)
  | duplicateType (name : String)
  deriving DecidableEq, Repr

def DatatypeError.message : DatatypeError → String
  | unknownType name => "unknown datatype '" ++ name ++ "'"
  | invalidDynamicName name => "dynamic datatype '" ++ name ++ "' must be a qualified name containing '.'"
  | duplicateType name => "datatype '" ++ name ++ "' is already registered"

/-- **The datatypes of a run**: the names of the struct types registered so far, in the order of their registration, and
the table of all datatypes, in which they follow the built-in ones.  Every name of a struct type has a dot. -/
structure Datatypes where
  dynamic : List String := []
  types : List Datatype := Datatype.builtIn ++ dynamic.map Datatype.ofStruct
  types_eq : types = Datatype.builtIn ++ dynamic.map Datatype.ofStruct := by rfl
  qualified : ∀ name ∈ dynamic, QualifiedName.isQualified name = true := by decide
  deriving DecidableEq, Repr

namespace Datatypes

def empty : Datatypes := {}

/-- The table with some struct types. -/
def ofStructs (names : List String) (h : names.all QualifiedName.isQualified = true) : Datatypes where
  dynamic := names
  qualified := List.all_eq_true.1 h

instance : Inhabited Datatypes := ⟨empty⟩

def names (d : Datatypes) : List String := d.types.map (·.name)

def find? (d : Datatypes) (name : String) : Option Datatype := d.types.find? fun t => t.name == name

/-- **Registration of a struct type.**  Its name has a dot, so it is never that of a built-in datatype. -/
def register (d : Datatypes) (name : String) : Except DatatypeError Datatypes :=
  if h : QualifiedName.isQualified name = true then
    if d.names.contains name then .error (.duplicateType name)
    else .ok {
      dynamic := d.dynamic ++ [name]
      types := d.types ++ [Datatype.ofStruct name]
      types_eq := by simp [d.types_eq]
      qualified := by simpa [or_imp, forall_and, h] using d.qualified }
  else .error (.invalidDynamicName name)

/-- No built-in datatype has a dot in its name. -/
theorem isQualified_builtIn : ∀ t ∈ Datatype.builtIn, QualifiedName.isQualified t.name = false := by decide

/-- **Struct types taken out of the table** one after another leave the built-in datatypes. -/
theorem foldl_eraseP (names : List String) (h : ∀ name ∈ names, QualifiedName.isQualified name = true) :
    names.foldl (fun types name => types.eraseP fun t => t.name == name)
      (Datatype.builtIn ++ names.map Datatype.ofStruct) =
      Datatype.builtIn := by
  induction names with
  | nil => simp
  | cons name names ih =>
    obtain ⟨hname, hrest⟩ := List.forall_mem_cons.1 h
    have hbuiltIn : ∀ t ∈ Datatype.builtIn, ¬ (t.name == name) = true := by
      intro t ht heq
      rw [← beq_iff_eq.1 heq, isQualified_builtIn t ht] at hname
      cases hname
    rw [List.foldl_cons, List.eraseP_append_right _ hbuiltIn, List.map_cons,
      List.eraseP_cons_of_pos (by simp [Datatype.ofStruct])]
    exact ih hrest

/-- **The struct types are forgotten**: each is taken out of the table. -/
def clearDynamic (d : Datatypes) : Datatypes where
  dynamic := []
  types := d.dynamic.foldl (fun types name => types.eraseP fun t => t.name == name) d.types
  types_eq := by rw [d.types_eq, foldl_eraseP d.dynamic d.qualified]; simp

/-- The struct types determine the table. -/
theorem eq_of_dynamic {d d' : Datatypes} (h : d.dynamic = d'.dynamic) : d = d' := by
  have htypes : d.types = d'.types := by rw [d.types_eq, d'.types_eq, h]
  cases d
  cases d'
  cases h
  cases htypes
  rfl

@[simp] theorem clearDynamic_eq (d : Datatypes) : d.clearDynamic = .empty := eq_of_dynamic rfl

/-- The datatype of a name; an array form gives the datatype of its elements. -/
def lookup? (d : Datatypes) (name : String) : Option Datatype := d.find? (Datatype.base name)

/-- **A known name** is a scalar datatype or its array form; there are no arrays of arrays. -/
def isKnown (d : Datatypes) (name : String) : Bool :=
  !Datatype.isArray (Datatype.base name) && (d.lookup? name).isSome

def require (d : Datatypes) (name : String) : Except DatatypeError Datatype :=
  if d.isKnown name then
    match d.lookup? name with
    | some t => .ok t
    | none => .error (.unknownType name)
  else .error (.unknownType name)

/-- **Membership.**  A value of an array form is a list of values of the element type. -/
def isValue (d : Datatypes) (v : Value) (name : String) : Except DatatypeError Bool := do
  let t ← d.require name
  if Datatype.isArray name then
    match v with
    | .list items => return items.all t.typeClass.accepts
    | _ => return false
  else return t.typeClass.accepts v

/-- Whether `candidate` is a declared subtype of `base`, array suffixes left aside. -/
def isSubtype (d : Datatypes) (candidate base : String) : Except DatatypeError Bool := do
  let _ ← d.require candidate
  let t ← d.require base
  return t.subtypes.contains (Datatype.base candidate)

/-- Every scalar datatype and its array form, each once, in alphabetical order. -/
def knownNames (d : Datatypes) : List String :=
  (d.names.flatMap fun n => [n, Datatype.arrayForm n]).eraseDups.mergeSort fun a b => decide (a ≤ b)

end Datatypes
end SignalCatalog
