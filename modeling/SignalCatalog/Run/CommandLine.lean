import SignalCatalog.Run.Catalog
/-!
# The command line

`vspec export`, `vspec check` and `vspec tree` compile a catalogue and print it, a line about it, or its outline.
Arguments are read from the left; a command line that is not understood ends with code two, a run that fails with code
one.
-/
namespace SignalCatalog
namespace CommandLine

/-- The form of an exported catalogue. -/
inductive Format where
  | yaml
  | json
  deriving DecidableEq, Repr

inductive Command where
  | export
  | check
  | tree
  deriving DecidableEq, Repr

/-- **The options of a command.** -/
structure Options where
  vspec : Option String := none
  config : Option String := none
  includeDirs : List String := []
  overlays : List String := []
  units : List String := []
  quantities : List String := []
  types : List String := []
  extendedAttributes : List String := []
  noExpand : Bool := false
  uuid : Bool := false
  strict : Bool := false
  abortOn : List PolicyName := []
  ignore : List PolicyName := []
  logLevel : Option String := none
  format : Option Format := none
  output : Option String := none
  typesOutput : Option String := none
  deriving Repr, Inhabited

/-- **A command line that starts no run**: one that asks for help or for the version, or one that is not understood. -/
inductive Refusal where
  | help
  | version
  | usage
  deriving DecidableEq, Repr

/-- What an option is given. -/
inductive OptionName where
  | config
  | includeDir
  | overlay
  | unitFile
  | quantityFile
  | types
  | extendedAttribute
  | noExpand
  | uuid
  | strict
  | abortOn
  | ignore
  | logLevel
  | format
  | output
  | typesOutput
  | help
  deriving DecidableEq, Repr

namespace OptionName

def isFlag : OptionName → Bool
  | noExpand => true
  | uuid => true
  | strict => true
  | help => true
  | _ => false

/-- The options of `export` alone. -/
def isExportOnly : OptionName → Bool
  | format => true
  | output => true
  | typesOutput => true
  | _ => false

def long? : String → Option OptionName
  | "config" => some config
  | "include-dir" => some includeDir
  | "overlay" => some overlay
  | "unit-file" => some unitFile
  | "quantity-file" => some quantityFile
  | "types" => some types
  | "extended-attribute" => some extendedAttribute
  | "no-expand" => some noExpand
  | "uuid" => some uuid
  | "strict" => some strict
  | "abort-on" => some abortOn
  | "ignore" => some ignore
  | "log-level" => some logLevel
  | "format" => some format
  | "output" => some output
  | "types-output" => some typesOutput
  | "help" => some help
  | _ => none

def short? : Char → Option OptionName
  | 'c' => some config
  | 'I' => some includeDir
  | 'l' => some overlay
  | 'u' => some unitFile
  | 'q' => some quantityFile
  | 't' => some types
  | 'e' => some extendedAttribute
  | 'f' => some format
  | 'o' => some output
  | 'h' => some help
  | _ => none

def ofCommand (c : Command) (o : Option OptionName) : Option OptionName :=
  o.filter fun o => c = .export || !o.isExportOnly

end OptionName

def logLevels : List String := ["warn", "info", "debug"]

def format? : String → Option Format
  | "yaml" => some .yaml
  | "json" => some .json
  | _ => none

def once {α : Type} (seen : Option α) (a : Option α) : Except Refusal (Option α) :=
  match seen, a with
  | none, some a => .ok (some a)
  | _, _ => .error .usage

def path (value : String) : Option String := if value = "" then none else some value

def more {α : Type} (l : List α) (a : Option α) : Except Refusal (List α) :=
  match a with
  | some a => .ok (l ++ [a])
  | none => .error .usage

def flag (seen : Bool) : Except Refusal Bool := if seen then .error .usage else .ok true

/-- **An option with its value**; a flag has none. -/
def Options.take (o : Options) (name : OptionName) (value : String) : Except Refusal Options :=
  match name with
  | .config => do return { o with config := ← once o.config (path value) }
  | .includeDir => do return { o with includeDirs := ← more o.includeDirs (path value) }
  | .overlay => do return { o with overlays := ← more o.overlays (path value) }
  | .unitFile => do return { o with units := ← more o.units (path value) }
  | .quantityFile => do return { o with quantities := ← more o.quantities (path value) }
  | .types => do return { o with types := ← more o.types (path value) }
  | .extendedAttribute => do return { o with extendedAttributes := o.extendedAttributes ++ [value] }
  | .noExpand => do return { o with noExpand := ← flag o.noExpand }
  | .uuid => do return { o with uuid := ← flag o.uuid }
  | .strict => do return { o with strict := ← flag o.strict }
  | .abortOn => do return { o with abortOn := ← more o.abortOn (PolicyName.ofWord? value) }
  | .ignore => do return { o with ignore := ← more o.ignore (PolicyName.ofWord? value) }
  | .logLevel => do return { o with logLevel := ← once o.logLevel ((some value).filter logLevels.contains) }
  | .format => do return { o with format := ← once o.format (format? value) }
  | .output => do return { o with output := ← once o.output (path value) }
  | .typesOutput => do return { o with typesOutput := ← once o.typesOutput (path value) }
  | .help => .error .help

def Options.takeRoot (o : Options) (value : String) : Except Refusal Options := do
  return { o with vspec := ← once o.vspec (path value) }

/-- An argument taken apart. -/
inductive Argument where
  /-- Two dashes: only root files follow. -/
  | separator
  | long (name : String) (value : Option String)
  | short (name : Char) (value : Option String)
  | plain (text : String)

def Argument.of (arg : String) : Argument :=
  match arg.toList with
  | ['-', '-'] => .separator
  | '-' :: '-' :: body =>
    let name := body.takeWhile (· != '=')
    let value :=
      match body.dropWhile (· != '=') with
      | _ :: v => some (String.ofList v)
      | [] => none
    .long (String.ofList name) value
  | '-' :: name :: rest =>
    .short name (match rest with
      | [] => none
      | '=' :: v => some (String.ofList v)
      | v => some (String.ofList v))
  | _ => .plain arg

/-- **A named option**, with the value attached to it if there is one.  The second result is the option that awaits
its value. -/
def Options.takeNamed (o : Options) (name : Option OptionName) (value : Option String) :
    Except Refusal (Options × Option OptionName) :=
  match name, value with
  | none, _ => .error .usage
  | some name, some value => if name.isFlag then .error .usage else do return (← o.take name value, none)
  | some name, none => if name.isFlag then do return (← o.take name "", none) else .ok (o, some name)

/-- **One argument behind a command**, the separator apart.  An option without a value attached awaits the next
argument, which must not look like an option itself. -/
def Options.takeArgument (c : Command) (o : Options) (awaiting : Option OptionName) (a : Argument) :
    Except Refusal (Options × Option OptionName) :=
  match awaiting, a with
  | some name, .plain value => do return (← o.take name value, none)
  | some _, _ => .error .usage
  | none, .plain text => do return (← o.takeRoot text, none)
  | none, .short 'h' _ => .error .help
  | none, .long name value => o.takeNamed (OptionName.ofCommand c (OptionName.long? name)) value
  | none, .short name value => o.takeNamed (OptionName.ofCommand c (OptionName.short? name)) value
  | none, .separator => .ok (o, none)

/-- **The arguments behind a command.**  Behind a separator stand root files only. -/
def readOptions (c : Command) (o : Options) (awaiting : Option OptionName) : List String → Except Refusal Options
  | [] => if awaiting.isSome then .error .usage else .ok o
  | arg :: rest =>
    match awaiting, Argument.of arg with
    | none, .separator => rest.foldlM Options.takeRoot o
    | awaiting, a => do
      let (o, awaiting) ← o.takeArgument c awaiting a
      readOptions c o awaiting rest

def command? : String → Option Command
  | "export" => some .export
  | "check" => some .check
  | "tree" => some .tree
  | _ => none

/-- The options after those of the environment, which are read whenever a command is. -/
def withEnvironment (env : Option String) (o : Options) : Except Refusal Options :=
  match o.config, env with
  | none, some "" => .error .usage
  | none, some value => .ok { o with config := some value }
  | _, _ => .ok o

/-- **A command line.**  Before the command stand only the log level, help and the version; `awaiting` says that the
next argument is a log level. -/
def parse (env : Option String) (o : Options) (awaiting : Bool) : List String → Except Refusal (Command × Options)
  | [] => .error .usage
  | arg :: rest =>
    match awaiting, Argument.of arg with
    | true, .plain level => do parse env (← o.take .logLevel level) false rest
    | true, _ => .error .usage
    | false, .long "version" none => .error .version
    | false, .short 'V' _ => .error .version
    | false, .long "help" none => .error .help
    | false, .short 'h' _ => .error .help
    | false, .long "log-level" (some level) => do parse env (← o.take .logLevel level) false rest
    | false, .long "log-level" none => parse env o true rest
    | false, .plain "help" =>
      match rest with
      | [] => .error .help
      | [topic] => if (command? topic).isSome || topic = "help" then .error .help else .error .usage
      | _ => .error .usage
    | false, .plain name =>
      match command? name with
      | some c => do
        let o ← readOptions c { o with logLevel := none } none rest
        return (c, ← withEnvironment env o)
      | none => .error .usage
    | false, _ => .error .usage

/-- **The configuration that options ask for**: that of the root file given, or that of a configuration file with the
options added to it. -/
def Options.toConfig (o : Options) (files : Files) (env : Option String) : Except ConfigError Config := do
  let base ←
    match o.vspec with
    | some vspec => pure { vspec }
    | none => Config.load files (Config.resolvePath o.config env)
  return { base with
    includeDirs := base.includeDirs ++ o.includeDirs
    overlays := base.overlays ++ o.overlays
    units := base.units ++ o.units
    quantities := base.quantities ++ o.quantities
    types := base.types ++ o.types
    extendedAttributes := base.extendedAttributes ++ o.extendedAttributes
    aborts := base.aborts ++ o.abortOn
    ignore := base.ignore ++ o.ignore
    expand := base.expand && !o.noExpand
    uuid := base.uuid || o.uuid
    strict := base.strict || o.strict }

/-- **What a command leaves behind**: its exit code, what it has printed, and the files. -/
structure Result where
  code : Nat
  stdout : String := ""
  stderr : String := ""
  files : Files
  deriving Repr

def Result.failed (stdout : String) (files : Files) (chain : List String) : Result :=
  { code := 1, stdout, stderr := "Error: " ++ ": ".intercalate chain ++ "\n", files }

def emit (before : String) (files : Files) (text : String) : Option String → Except (List String) (String × Files)
  | none => .ok (before ++ text, files)
  | some target =>
    match files.write target text with
    | .ok files => .ok (before, files)
    | .error cause => .error ["Failed to write " ++ target, cause.message]

def render (c : Config) (format : Option Format) (t : Tree) : Except RunError String :=
  match format with
  | some .json => Catalog.toJson c t
  | _ => Catalog.toYaml c t

/-- **`export`**: the signal tree, then the type tree if it has a file of its own. -/
def exportCatalog (files : Files) (c : Config) (o : Options) (catalog : Catalog) : Result :=
  match render c o.format catalog.root with
  | .error e => .failed "" files e.chain
  | .ok text =>
    match emit "" files text o.output with
    | .error chain => .failed "" files chain
    | .ok (stdout, files) =>
      match o.typesOutput, catalog.types with
      | some target, some types =>
        match render c o.format types with
        | .error e => .failed stdout files e.chain
        | .ok text =>
          match emit stdout files text (some target) with
          | .error chain => .failed stdout files chain
          | .ok (stdout, files) => { code := 0, stdout, files }
      | _, _ => { code := 0, stdout, files }

def summary (catalog : Catalog) : String :=
  "OK: " ++ toString catalog.root.nodeCount ++ " node(s), " ++
    toString catalog.registry.datatypes.dynamic.length ++ " user type(s)\n"

def onCatalog (files : Files) (c : Config) (o : Options) (catalog : Catalog) : Command → Result
  | .export => exportCatalog files c o catalog
  | .check => { code := 0, stdout := summary catalog, files }
  | .tree => { code := 0, stdout := catalog.root.outline, files }

def runCommand (files : Files) (env : Option String) (command : Command) (o : Options) : Option Result :=
  match o.toConfig files env with
  | .error e => some (.failed "" files (e.context :: e.reason?.toList))
  | .ok c =>
    (Catalog.compile files c).run.map fun
      | .error e => .failed "" files e.chain
      | .ok catalog => onCatalog files c o catalog command

def versionText : String := "vspec 0.1.0\n"

def helpText : String :=
  "Compile vehicle signal specification files\n\nUsage: vspec [OPTIONS] <COMMAND>\n\nCommands:\n" ++
  "  export  Compile and print the flat fqn -> payload mapping\n  check   Compile and report problems only\n" ++
  "  tree    Compile and print an indented outline of the tree\n"

/-- **A whole command line** on the files of the working directory, if it ends. -/
def run (files : Files) (env : Option String) (args : List String) : Option Result :=
  match parse env {} false args with
  | .ok (command, o) => runCommand files env command o
  | .error .help => some { code := 0, stdout := helpText, files }
  | .error .version => some { code := 0, stdout := versionText, files }
  | .error .usage => some { code := 2, files }

end CommandLine
end SignalCatalog
