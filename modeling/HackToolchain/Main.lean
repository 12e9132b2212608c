import HackToolchain.CommandLine.Assemble
import HackToolchain.CommandLine.Translate

/-!
# The program

The first argument names the tool, and the others are its arguments. What the arguments may refer to
is read from the disk into a workspace before the tool runs, and what the tool changed is written
back afterwards; nothing else here has an effect.
-/

set_option autoImplicit false

namespace HackToolchain.CommandLine

/-! ## Reading -/

/-- A place as the operating system writes it. -/
def placeText (place : Place) : String := "/" ++ "/".intercalate place

/-- Adds what is at a place. -/
def readPlace (t : FileTree) (place : Place) : IO FileTree := do
  let here := (← IO.currentDir) / placeText place
  if ← here.isDir then return t.put place .directory
  else if ← here.pathExists then return t.put place (.file (← IO.FS.readBinFile here))
  else return t

/-- Adds what is on the way along some names from a place. -/
def readAlong (t : FileTree) (place : Place) : List String → IO FileTree
  | [] => return t
  | name :: rest => do
    let next := if name = ".." then place.dropLast else place ++ [name]
    let t ← readPlace t next
    readAlong t next rest

/-- Adds what a path leads to. -/
def readPath (w : Workspace) (p : Path) : IO Workspace := do
  let tree ← readAlong w.tree (if p.isAbsolute then [] else w.current) p.names
  return { w with tree }

/-- Adds the sources in the directory that a path leads to, if it does. -/
def readSources (w : Workspace) (p : Path) : IO Workspace :=
  match w.spot p with
  | .directory place => do
    let listing ← ((← IO.currentDir) / placeText place).readDir
    let names := (listing.toList.map (·.fileName)).filter Codegen.isSourceName
    let tree ← names.foldlM (fun t name => readPlace t (place ++ [name])) w.tree
    return { w with tree }
  | _ => return w

/-- The paths that an argument may hold: the whole, what follows an equals sign, and what follows a
letter. -/
def pathsIn (arg : String) : List Path :=
  let s := arg.toList
  [s, (s.dropWhile (· != '=')).drop 1, s.drop 2].map fun t => Path.ofString (String.ofList t)

/-- Adds everything that a path may refer to, default outputs included. -/
def readAround (w : Workspace) (p : Path) : IO Workspace := do
  let w ← readPath w p
  let w ← readSources w p
  let outputs := [Codegen.defaultOutput w p, defaultImage p].filterMap Except.toOption
  outputs.foldlM readPath w

/-- The workspace that arguments may refer to. -/
def readWorkspace (args : List String) : IO Workspace := do
  let current := (Path.ofString (← IO.currentDir).toString).names
  let tree := (List.range current.length).foldl
    (fun (t : FileTree) n => t.put (current.take (n + 1)) .directory) {}
  (args.flatMap pathsIn).foldlM readAround { tree, current }

/-- The settings in the environment that the tools look at. -/
def readEnvironment : IO Codegen.Environment := do
  let names := ["HACKVM_BOOTSTRAP", "HACKVM_COMMENTS", "HACKVM_ENTRY"]
  let settings ← names.mapM fun name => return (← IO.getEnv name).map fun value => (name, value)
  return settings.filterMap id

/-! ## Writing -/

/-- Writes the files that a tool changed. -/
def writeChanges (before after : FileTree) : IO Unit := do
  for (place, node) in after.nodes do
    match node with
    | .directory => pure ()
    | .file content =>
      if before.get? place ≠ some node then IO.FS.writeBinFile (placeText place) content

def runTool (tool : Invocation → Outcome) (arguments : List String) : IO UInt32 := do
  let workspace ← readWorkspace arguments
  let environment ← readEnvironment
  let outcome := tool { arguments, environment, workspace }
  writeChanges workspace.tree outcome.workspace.tree
  IO.print outcome.output
  IO.eprint outcome.errors
  return outcome.exitCode.code.toUInt32

/-- Runs the tool that a name stands for. -/
def runNamed : List String → IO UInt32
  | "vmtranslate" :: arguments => runTool runTranslate arguments
  | "hackasm" :: arguments => runTool runAssemble arguments
  | _ => do
    IO.eprintln "The first argument must be vmtranslate or hackasm."
    return ExitCode.invalidArguments.code.toUInt32

end HackToolchain.CommandLine

def main (arguments : List String) : IO UInt32 := HackToolchain.CommandLine.runNamed arguments
