import HackToolchain.Files.Path
import HackToolchain.Text.Quoted

/-!
# File trees

Files and directories as a value. A node is filed under its location, the list of names that leads
to it from the root of the tree; the order of the nodes is the order in which a directory happens to
list them. A path is followed name by name from the current directory, two dots leading back to the
directory above.

Names and paths have a greatest length, which is counted in bytes of their UTF-8 text. A name that
is too long is noticed where it is looked up in a directory, a path that is too long at once. No
path has a null character.
-/

set_option autoImplicit false

namespace HackToolchain

open Text

/-- Contents are compared byte by byte. -/
instance decidableEqContent : DecidableEq ByteArray := ByteArray.instDecidableEq

/-- What there is at a location. -/
inductive Node where
  | directory
  | file (content : ByteArray)
  deriving DecidableEq

/-- The names that lead to a node from the root. -/
abbrev Place := List String

/-- The nodes of a tree, but for its root, which is a directory. -/
structure FileTree where
  nodes : List (Place × Node) := []
  deriving DecidableEq

namespace FileTree

/-- The most bytes that a name may have. -/
def maxNameBytes : Nat := 255

/-- The most bytes that a path may have. -/
def maxPathBytes : Nat := 4095

def get? (t : FileTree) (place : Place) : Option Node :=
  if place.isEmpty then some .directory
  else (t.nodes.find? fun n => n.1 = place).map (·.2)

/-- Puts a node at a location, in the place of the one that is there or at the end. -/
def put (t : FileTree) (place : Place) (node : Node) : FileTree :=
  if (t.get? place).isSome then
    { nodes := t.nodes.map fun n => if n.1 = place then (place, node) else n }
  else { nodes := t.nodes ++ [(place, node)] }

/-- The names and nodes of a directory, as they are listed. -/
def children (t : FileTree) (place : Place) : List (String × Node) :=
  t.nodes.filterMap fun n =>
    match n.1.getLast? with
    | some name => if n.1.dropLast = place then some (name, n.2) else none
    | none => none

/-- Where a path leads to. -/
inductive Spot where
  | directory (place : Place)
  | file (place : Place) (content : ByteArray)
  /-- Nothing is there, but something could be put there. -/
  | vacant (place : Place)
  /-- A directory on the way is missing. -/
  | missing
  /-- On the way there is a file. -/
  | blocked
  /-- A name looked up on the way, or the path itself, is too long. -/
  | tooLong
  /-- The path has a null character and leads nowhere. -/
  | nowhere
  deriving DecidableEq

/-- Where a path leads to if its text alone decides that: there is no path with a null character,
and none that is too long. -/
def spotOfText? (s : String) : Option Spot :=
  if s.toList.contains '\x00' then some .nowhere
  else if maxPathBytes < s.utf8ByteSize then some .tooLong
  else none

/-- Follows names from a directory. -/
def follow (t : FileTree) (place : Place) : List String → Spot
  | [] => .directory place
  | name :: rest =>
    -- Above the root is the root.
    if name = ".." then t.follow place.dropLast rest
    else if maxNameBytes < name.utf8ByteSize then .tooLong
    else
      match t.get? (place ++ [name]) with
      | some .directory => t.follow (place ++ [name]) rest
      | some (.file content) =>
        if rest.isEmpty then .file (place ++ [name]) content else .blocked
      | none => if rest.isEmpty then .vacant (place ++ [name]) else .missing

end FileTree

/-! ## Workspaces -/

/-- Why a file cannot be read or written. -/
inductive FileError where
  | noSuchFile (path : Path)
  | isDirectory (path : Path)
  | notDirectory (path : Path)
  | nameTooLong (path : Path)
  /-- There is a null character in the path. -/
  | nullCharacter
  deriving Repr, DecidableEq

/-- What is told of a file that cannot be read or written. -/
def FileError.message : FileError → String
  | .noSuchFile p => "[Errno 2] No such file or directory: " ++ quoted p.render
  | .isDirectory p => "[Errno 21] Is a directory: " ++ quoted p.render
  | .notDirectory p => "[Errno 20] Not a directory: " ++ quoted p.render
  | .nameTooLong p => "[Errno 36] File name too long: " ++ quoted p.render
  | .nullCharacter => "embedded null byte"

/-- A file tree and the current directory in it. -/
structure Workspace where
  tree : FileTree := {}
  current : Place := []
  deriving DecidableEq

namespace Workspace

/-- Where a path leads to. -/
def spot (w : Workspace) (p : Path) : FileTree.Spot :=
  match FileTree.spotOfText? p.render with
  | some spot => spot
  | none => w.tree.follow (if p.isAbsolute then [] else w.current) p.names

/-- Tells whether there is a file or a directory at a path. -/
def exists? (w : Workspace) (p : Path) : Except FileError Bool :=
  match w.spot p with
  | .directory _ | .file _ _ => .ok true
  | .vacant _ | .missing | .blocked | .nowhere => .ok false
  | .tooLong => .error (.nameTooLong p)

/-- There is a directory at a path. -/
def isDirectory (w : Workspace) (p : Path) : Bool :=
  match w.spot p with
  | .directory _ => true
  | _ => false

def read (w : Workspace) (p : Path) : Except FileError ByteArray :=
  match w.spot p with
  | .file _ content => .ok content
  | .directory _ => .error (.isDirectory p)
  | .vacant _ | .missing => .error (.noSuchFile p)
  | .blocked => .error (.notDirectory p)
  | .tooLong => .error (.nameTooLong p)
  | .nowhere => .error .nullCharacter

/-- Writes a text to the file at a path, which is made if it is not there. -/
def write (w : Workspace) (p : Path) (text : String) : Except FileError Workspace :=
  match w.spot p with
  | .file place _ | .vacant place =>
      .ok { w with tree := w.tree.put place (.file text.toUTF8) }
  | .directory _ => .error (.isDirectory p)
  | .missing => .error (.noSuchFile p)
  | .blocked => .error (.notDirectory p)
  | .tooLong => .error (.nameTooLong p)
  | .nowhere => .error .nullCharacter

end Workspace

end HackToolchain
