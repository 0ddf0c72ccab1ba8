import SignalCatalog.Run.CommandLine
/-!
# The program

The files below the working directory are read into a value, each at its place from the root; the command line is run on
it, and what it leaves behind is written out: the files that are new or changed, what was printed, and the exit code.
-/
namespace SignalCatalog
namespace Main

/-- An entry of a directory and the entries below it, at most `depth` directories deep; what cannot be read is left out.
A link to another place below `top` is kept as one, and any other is read through. -/
def collect (top : String) (depth : Nat) (dir : String) (e : IO.FS.DirEntry) : IO (List (String × FileEntry)) := do
  let path := dir ++ "/" ++ e.fileName
  try
    let real := (← IO.FS.realPath e.path).toString
    if real != e.path.toString && (top ++ "/").isPrefixOf real then return [(path, .link real)]
    if ← e.path.isDir then
      match depth with
      | 0 => return [(path, .directory)]
      | depth + 1 => return (path, .directory) :: (← (← e.path.readDir).toList.mapM (collect top depth path)).flatten
    else return [(path, .text (← IO.FS.readFile e.path))]
  catch _ => return []

def maxDepth : Nat := 64

def changed (before after : Files) : List (Place × FileEntry) :=
  after.entries.filter fun e => !before.entries.contains e

def writeEntry (e : Place × FileEntry) : IO Unit :=
  match e.2 with
  | .text content => IO.FS.writeFile ("/" ++ "/".intercalate e.1) content
  | _ => pure ()

end Main
end SignalCatalog

open SignalCatalog in
def main (args : List String) : IO UInt32 := do
  let here ← IO.currentDir
  let entries ← here.readDir
  let collected ← entries.toList.mapM (Main.collect here.toString Main.maxDepth ".")
  let files := Files.ofPaths (Files.placeOf [] here.toString) collected.flatten
  let some outcome := CommandLine.run files (← IO.getEnv "VSPEC_CONFIG") args | return 1
  (Main.changed files outcome.files).forM Main.writeEntry
  IO.print outcome.stdout
  IO.eprint outcome.stderr
  return outcome.code.toUInt32
