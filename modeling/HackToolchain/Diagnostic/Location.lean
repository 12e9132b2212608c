/-!
# Locations

Where in a source something stands: the name of the source, a line and a column, both counted from
one. Locations that do not come from reading a source may hold any numbers.
-/

set_option autoImplicit false

namespace HackToolchain

/-- A place in a source. -/
structure Location where
  file : String
  line : Int
  column : Int := 1
  deriving Repr, DecidableEq

/-- The text of a location, its three parts between colons. -/
def Location.render (l : Location) : String :=
  l.file ++ ":" ++ toString l.line ++ ":" ++ toString l.column

end HackToolchain
