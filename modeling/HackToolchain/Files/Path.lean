import HackToolchain.Text.Blank

/-!
# Paths

A path is a sequence of names, after a root if it is absolute. Empty names and single dots are
dropped when a path is read; two dots stay, because what lies above a name is known only to the file
system. Paths that begin with exactly two strokes have a root of their own.

The last name of a path falls into a stem and a suffix, the suffix beginning with the last dot of
the name unless that is its first or last character.
-/

set_option autoImplicit false

namespace HackToolchain

open Text

/-- A path. -/
structure Path where
  /-- Empty for a relative path, otherwise one stroke or two. -/
  root : String := ""
  names : List String := []
  deriving Repr, DecidableEq

namespace Path

/-- The root of a path as it is written. -/
def rootOf (s : List Char) : String :=
  match s with
  | '/' :: '/' :: '/' :: _ => "/"
  | '/' :: '/' :: _ => "//"
  | '/' :: _ => "/"
  | _ => ""

/-- The names between the strokes of a path, but for single dots. -/
def namesOf (s : List Char) : List String :=
  ((stretches (· == '/') s).filter (· != ['.'])).map String.ofList

def ofString (s : String) : Path := { root := rootOf s.toList, names := namesOf s.toList }

def render (p : Path) : String :=
  if p.root = "" && p.names.isEmpty then "." else p.root ++ "/".intercalate p.names

def isAbsolute (p : Path) : Bool := p.root != ""

def name (p : Path) : String := p.names.getLast?.getD ""

/-- A name in two parts, before its suffix and from its suffix on. -/
def splitName (name : List Char) : List Char × List Char :=
  let tail := name.reverse.takeWhile (· != '.')
  match name.reverse.dropWhile (· != '.') with
  | _ :: before =>
    if tail.isEmpty || before.isEmpty then (name, [])
    else (before.reverse, '.' :: tail.reverse)
  | [] => (name, [])

/-- The last name without its suffix. -/
def stem (p : Path) : String := String.ofList (splitName p.name.toList).1

def suffix (p : Path) : String := String.ofList (splitName p.name.toList).2

/-- The path with another suffix in place of its own, if it has a last name. -/
def withSuffix? (p : Path) (suffix : String) : Option Path :=
  if p.name = "" then none
  else some { p with names := p.names.dropLast ++ [p.stem ++ suffix] }

def child (p : Path) (name : String) : Path := { p with names := p.names ++ [name] }

/-- The two parts of a name make it up. -/
theorem splitName_append (name : List Char) : (splitName name).1 ++ (splitName name).2 = name := by
  have h := List.takeWhile_append_dropWhile (p := (· != '.')) (l := name.reverse)
  unfold splitName
  split
  · rename_i c before hd
    dsimp only
    split
    · simp
    · have hc : c = '.' := by
        have := List.head?_dropWhile_not (· != '.') name.reverse
        simpa [hd] using this
      subst hc
      rw [hd] at h
      have := congrArg List.reverse h
      simpa using this
  · simp

end Path

end HackToolchain
