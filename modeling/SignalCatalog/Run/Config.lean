import SignalCatalog.Files
import SignalCatalog.Policy
import SignalCatalog.Yaml.Node
import SignalCatalog.Yaml.Resolve
/-!
# The configuration of a run

A run is described by a YAML mapping with twelve known keys.  Paths and other strings keep their source text whatever
they would mean as YAML, and relative paths are meant from the directory of the configuration file.
-/
namespace SignalCatalog

/-- The policies that a run may hold more or less strictly. -/
inductive PolicyName where
  | nameStyle
  | unknownAttribute
  deriving DecidableEq, Repr

/-- The word for a policy in configurations and on the command line. -/
def PolicyName.word : PolicyName → String
  | nameStyle => "name-style"
  | unknownAttribute => "unknown-attribute"

def PolicyName.ofWord? (w : String) : Option PolicyName :=
  [PolicyName.nameStyle, .unknownAttribute].find? fun p => p.word == w

/-- **What a run is to do.** -/
structure Config where
  vspec : String := ""
  includeDirs : List String := []
  overlays : List String := []
  units : List String := []
  quantities : List String := []
  types : List String := []
  expand : Bool := true
  uuid : Bool := false
  strict : Bool := false
  aborts : List PolicyName := []
  ignore : List PolicyName := []
  extendedAttributes : List String := []
  deriving DecidableEq, Repr, Inhabited

inductive ConfigError where
  | unreadable (path : String) (cause : FileError)
  | notAConfig (path : String)
  | noVspec (path : String)
  deriving DecidableEq, Repr

def noVspecText : String := "'vspec' must name the root vspec file"

def ConfigError.context : ConfigError → String
  | unreadable path _ => "Failed to read " ++ path
  | notAConfig path => "Failed to parse " ++ path
  | noVspec path => "Invalid configuration in " ++ path

/-- The reason behind the context, where it has words of its own. -/
def ConfigError.reason? : ConfigError → Option String
  | unreadable _ cause => some cause.message
  | notAConfig _ => none
  | noVspec _ => some noVspecText

namespace Config

/-- **How strictly a policy is held**: being strict or aborting goes before ignoring. -/
def level (c : Config) (p : PolicyName) : CheckLevel :=
  if c.strict || c.aborts.contains p then .fail else if c.ignore.contains p then .ignore else .warn

/-- The files given, or the one of a default name beside the root file, if it is there. -/
def filesOrDefault (c : Config) (files : Files) (given : List String) (name : String) : List String :=
  if !given.isEmpty then given
  else
    let path := Pathname.join ((Pathname.parent? c.vspec).getD ".") name
    if files.exists path then [path] else []

def unitFiles (c : Config) (files : Files) : List String := c.filesOrDefault files c.units "units.yaml"

def quantityFiles (c : Config) (files : Files) : List String := c.filesOrDefault files c.quantities "quantities.yaml"

/-- **Relative paths meant from a directory.** -/
def rebase (c : Config) (dir : String) : Config :=
  let join := Pathname.join dir
  { c with
    vspec := join c.vspec
    includeDirs := c.includeDirs.map join
    overlays := c.overlays.map join
    units := c.units.map join
    quantities := c.quantities.map join
    types := c.types.map join }

/-! ## Reading -/

def text? : Yaml.Node → Option String
  | .scalar _ _ text => some text
  | _ => none

/-- A boolean: a plain scalar, or a literal block that has the tag of booleans. -/
def bool? : Yaml.Node → Option Bool
  | .scalar tag form text =>
    if form = .plain ∨ (form = .literal ∧ tag = some .bool) then
      match Yaml.resolve text with
      | .bool b => some b
      | _ => none
    else none
  | _ => none

def list? {α : Type} (item? : Yaml.Node → Option α) : Yaml.Node → Option (List α)
  | .sequence _ items => items.mapM item?
  | .scalar _ .plain "" => some []
  | _ => none

/-- **A policy**: its word as the text of a scalar, or as the name of the tag of a null. -/
def policy? : Yaml.Node → Option PolicyName
  | .scalar tag form text =>
    match tag.bind Yaml.NodeTag.name? with
    | none => PolicyName.ofWord? text
    | some name => if form = .plain ∧ Yaml.resolve text = .null then PolicyName.ofWord? name else none
  | _ => none

/-- **One key of a configuration**; there are no others than these. -/
def set? (c : Config) (key : String) (n : Yaml.Node) : Option Config :=
  match key with
  | "vspec" => do return { c with vspec := ← text? n }
  | "include_dirs" => do return { c with includeDirs := ← list? text? n }
  | "overlays" => do return { c with overlays := ← list? text? n }
  | "units" => do return { c with units := ← list? text? n }
  | "quantities" => do return { c with quantities := ← list? text? n }
  | "types" => do return { c with types := ← list? text? n }
  | "expand" => do return { c with expand := ← bool? n }
  | "uuid" => do return { c with uuid := ← bool? n }
  | "strict" => do return { c with strict := ← bool? n }
  | "aborts" => do return { c with aborts := ← list? policy? n }
  | "ignore" => do return { c with ignore := ← list? policy? n }
  | "extended_attributes" => do return { c with extendedAttributes := ← list? text? n }
  | _ => none

/-- The entries of a configuration, each key at most once. -/
def setAll? (c : Config) (seen : List String) : List (Yaml.Node × Yaml.Node) → Option Config
  | [] => some c
  | (k, n) :: rest => do
    let key ← text? k
    if seen.contains key then none
    let c ← c.set? key n
    c.setAll? (key :: seen) rest

/-- **The configuration of a document**; an empty one has all defaults. -/
def ofNode? : Option Yaml.Node → Option Config
  | none => some {}
  | some (.mapping _ entries) => setAll? {} [] entries
  | some (.scalar _ .plain "") => some {}
  | some _ => none

def ofText? (text : String) : Option Config := do
  match Yaml.Node.ofText text with
  | .ok document => ofNode? document
  | .error _ => none

/-- **The configuration file of a run**: the one given, or that of the environment, or `vspec.yaml`. -/
def resolvePath (given env : Option String) : String := (given.orElse fun _ => env).getD "vspec.yaml"

/-- **A configuration file read**, its paths meant from its directory. -/
def load (files : Files) (path : String) : Except ConfigError Config :=
  match files.read path with
  | .error cause => .error (.unreadable path cause)
  | .ok text =>
    match ofText? text with
    | none => .error (.notAConfig path)
    | some c =>
      if c.vspec = "" then .error (.noVspec path)
      else .ok (match Pathname.parent? path with
        | some dir => c.rebase dir
        | none => c)

end Config
end SignalCatalog
