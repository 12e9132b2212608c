import HackToolchain.Failure
import HackToolchain.Codegen.Program

/-!
# Translating files

A file is translated alone, a directory as one program of all its sources in the order of their
names, whatever the order in which the directory lists them. All that the directory lists is looked
at, as it is listed, sources or not, so that nothing in it may have too long a path. The assembly is
written, to one file, only when all of the program has been translated.
-/

set_option autoImplicit false

namespace HackToolchain.Codegen

open Text

/-! ## Sources and outputs -/

/-- A name has the suffix of sources, in small letters or capitals. -/
def isSourceName (name : String) : Bool :=
  lower (Path.splitName name.toList).2 = ".vm".toList

/-- The names of the sources in the listing of a directory, in order. -/
def sourceNames (listing : List (String × Node)) : List String :=
  let isSource : String × Node → Bool
    | (name, .file _) => isSourceName name
    | (_, .directory) => false
  ((listing.filter isSource).map (·.1)).mergeSort (· ≤ ·)

/-- The path of an entry in the listing of a directory that is too long to be looked at, the first
one listed. -/
def overlongEntry? (p : Path) (listing : List (String × Node)) : Option Path :=
  (listing.map fun e => p.child e.1).find? fun c =>
    FileTree.spotOfText? c.render = some .tooLong

/-- The sources at a path: the file itself, or the sources in the directory. -/
def discover (w : Workspace) (p : Path) : Except Failure (List Path) :=
  match w.spot p with
  | .directory place =>
    let listing := w.tree.children place
    match overlongEntry? p listing, sourceNames listing with
    | some entry, _ => .error (.file (.nameTooLong entry))
    | none, [] => .error (.input (.noSources p))
    | none, names => .ok (names.map p.child)
  | .file _ _ => if isSourceName p.name then .ok [p] else .error (.input (.wrongSuffix p.suffix))
  | .tooLong => .error (.file (.nameTooLong p))
  | _ => .error (.missing (.input p))

/-- The file that the assembly of a path is written to by default: next to a file, in a directory
under the name of the directory. -/
def defaultOutput (w : Workspace) (p : Path) : Except Failure Path :=
  match w.spot p with
  | .directory place => .ok (p.child (place.getLast?.getD "" ++ ".asm"))
  | .tooLong => .error (.file (.nameTooLong p))
  | _ =>
    match p.withSuffix? ".asm" with
    | some out => .ok out
    | none => .error (.nameless p)

/-! ## Translating -/

/-- The files at paths, opened for reading; the first that is not there is named. -/
def openSources (w : Workspace) : List Path → Except Failure (List SourceUnit)
  | [] => .ok []
  | p :: rest =>
    match w.spot p with
    | .file _ content =>
      -- Bytes are decoded when the module is read, so a fault in them is not met here.
      (openSources w rest).map
        ({ moduleName := p.stem, source := .ofBytes content.data.toList, path := some p } :: ·)
    | .tooLong => .error (.file (.nameTooLong p))
    | _ => .error (.missing (.source p))

/-- Translates files, in the order given. Bootstrap code is written if this call or else the options
say so, and if neither says anything, for more than one file. -/
def translateFiles (w : Workspace) (options : Options) (paths : List Path)
    (bootstrap : Option Bool := none) (journal : Journal := #[]) :
    Except Failure Result × Journal :=
  if paths.isEmpty then (.error (.input .noFiles), journal)
  else
    match openSources w paths with
    | .error f => (.error f, journal)
    | .ok units =>
      let bootstrap := bootstrap.getD (options.bootstrap.getD (1 < paths.length))
      let (outcome, journal) := translateProgram options bootstrap units journal
      (outcome.mapError .codegen, journal)

/-- Translates the sources at a path. Those of a directory start with bootstrap code unless the
options say otherwise. -/
def translatePath (w : Workspace) (options : Options) (p : Path) (journal : Journal := #[]) :
    Except Failure Result × Journal :=
  match discover w p with
  | .error f => (.error f, journal)
  | .ok sources =>
    let bootstrap :=
      match options.bootstrap with
      | some b => some b
      | none => if w.isDirectory p then some true else none
    translateFiles w options sources bootstrap journal

/-- Translates the sources at a path and writes the assembly, by default to the path's own output
file. The workspace changes only if all goes well. -/
def translateToFile (w : Workspace) (options : Options) (p : Path)
    (output : Option Path := none) (journal : Journal := #[]) :
    Except Failure Result × Workspace × Journal :=
  match translatePath w options p journal with
  | (.error f, journal) => (.error f, w, journal)
  | (.ok result, journal) =>
    let out : Except Failure Path :=
      match output with
      | some out => .ok out
      | none => defaultOutput w p
    match out with
    | .error f => (.error f, w, journal)
    | .ok out =>
      match w.write out result.assembly with
      | .error e => (.error (.file e), w, journal)
      | .ok w =>
        (.ok { result with outputPath := some out }, w,
          journal.push (.assemblyWritten result.lineCount out))

end HackToolchain.Codegen
