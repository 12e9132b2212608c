import HackToolchain.Table

/-!
# Arguments

The arguments of a tool are options and operands in any order. An option has a long spelling, after
two dashes, and may have a letter, after one dash. Letters may be joined behind one dash. An option
that takes a value finds it after an equals sign (long spelling), in the rest of the letters, or in
the next argument, whatever that looks like. After two dashes alone there are only operands. Of
several occurrences of an option the last one counts.

What the options of a tool are is said by a grammar: a list of options, each with its effect. The
value of an option changes the settings of the tool, or it is the path of a file that the tool is to
write. Such paths are kept in the order in which their options first occur, which is the order in
which they are checked later.
-/

set_option autoImplicit false

namespace HackToolchain.CommandLine

/-! ## Grammars -/

/-- What a tool can be asked to tell about itself. -/
inductive Notice where
  | version
  | help
  deriving Repr, DecidableEq

/-- What the value of an option is for. -/
inductive Use (α : Type) where
  /-- The value is a setting. -/
  | setting (change : String → α → α)
  /-- The value is the path of the output of this name. -/
  | output (name : String)

/-- The effect of an option. -/
inductive Effect (α : Type) where
  /-- The option stands alone. -/
  | flag (change : α → α)
  /-- The option takes a value. -/
  | value (use : Use α)
  /-- The tool is asked to tell something instead of working. -/
  | notice (n : Notice)

/-- An option. -/
structure OptionRule (α : Type) where
  long : String
  letter : Option Char := none
  effect : Effect α

/-- The options of a tool. -/
abbrev Grammar (α : Type) := List (OptionRule α)

/-- The options that every tool has. -/
def commonOptions {α : Type} : Grammar α :=
  [{ long := "version", effect := .notice .version }, { long := "help", effect := .notice .help }]

namespace Grammar

variable {α : Type}

def long? (g : Grammar α) (name : String) : Option (Effect α) :=
  (g.find? fun o => o.long = name).map (·.effect)

def letter? (g : Grammar α) (c : Char) : Option (Effect α) :=
  (g.find? fun o => o.letter = some c).map (·.effect)

end Grammar

/-! ## Misuse -/

/-- Why arguments are refused. -/
inductive Misuse where
  | unknownOption (name : String)
  /-- An option lacks its value. -/
  | missingValue (name : String)
  /-- An option that stands alone was given a value. -/
  | surplusValue (name : String)
  | missingOperand
  | surplusOperands (operands : List String)
  /-- An input is not there. -/
  | noSuchPath (path : String)
  /-- A directory was named where a file must be. -/
  | isDirectory (path : String)
  /-- There is a null character in a path. -/
  | nullCharacter
  deriving Repr, DecidableEq

/-- What is told of refused arguments. -/
def Misuse.message : Misuse → String
  | .unknownOption name => "No such option: " ++ name
  | .missingValue name => "Option '" ++ name ++ "' requires an argument."
  | .surplusValue name => "Option '" ++ name ++ "' does not take a value."
  | .missingOperand => "Missing argument."
  | .surplusOperands operands =>
      "Got unexpected extra arguments (" ++ " ".intercalate operands ++ ")"
  | .noSuchPath path => "Path '" ++ path ++ "' does not exist."
  | .isDirectory path => "'" ++ path ++ "' is a directory."
  | .nullCharacter => "A path holds a null character."

/-- A misuse calls for a reminder of how the tool is used, unless only the value of an option is
lacking or too many. -/
def Misuse.callsForUsage : Misuse → Bool
  | .missingValue _ | .surplusValue _ => false
  | _ => true

/-! ## Reading -/

/-- What has been read of the arguments. -/
structure Reading (α : Type) where
  settings : α
  /-- The paths of outputs, by the names of the outputs. -/
  outputs : Table String := .empty
  /-- The operands, the last one first. -/
  operands : List String := []
  /-- The first notice asked for. -/
  notice : Option Notice := none
  /-- The option that waits for its value, and what the value is for. -/
  awaiting : Option (String × Use α) := none
  /-- Only operands follow. -/
  ended : Bool := false

namespace Reading

variable {α : Type}

def change (r : Reading α) (f : α → α) : Reading α := { r with settings := f r.settings }

/-- Takes the value of an option. -/
def use (r : Reading α) (value : String) : Use α → Reading α
  | .setting f => r.change (f value)
  | .output name => { r with outputs := r.outputs.insert name value }

def ask (r : Reading α) (n : Notice) : Reading α := { r with notice := r.notice.or (some n) }

def operand (r : Reading α) (arg : String) : Reading α := { r with operands := arg :: r.operands }

/-- Reads letters behind one dash. -/
def takeLetters (g : Grammar α) (r : Reading α) : List Char → Except Misuse (Reading α)
  | [] => .ok r
  | c :: rest =>
    let name := String.ofList ['-', c]
    match g.letter? c with
    | none => .error (.unknownOption name)
    | some (.flag f) => (r.change f).takeLetters g rest
    | some (.notice n) => (r.ask n).takeLetters g rest
    | some (.value u) =>
      if rest.isEmpty then .ok { r with awaiting := some (name, u) }
      else .ok (r.use (String.ofList rest) u)

/-- Reads a long option, with the value after its equals sign if there is one. -/
def takeLong (g : Grammar α) (r : Reading α) (name : String) (value : Option String) :
    Except Misuse (Reading α) :=
  match g.long? name, value with
  | none, _ => .error (.unknownOption ("--" ++ name))
  | some (.value u), some v => .ok (r.use v u)
  | some (.value u), none => .ok { r with awaiting := some ("--" ++ name, u) }
  | some (.flag f), none => .ok (r.change f)
  | some (.notice n), none => .ok (r.ask n)
  | some _, some _ => .error (.surplusValue ("--" ++ name))

/-- Reads what follows two dashes. -/
def takeLongText (g : Grammar α) (r : Reading α) (s : List Char) : Except Misuse (Reading α) :=
  let name := String.ofList (s.takeWhile (· != '='))
  match s.dropWhile (· != '=') with
  | [] => r.takeLong g name none
  | _ :: value => r.takeLong g name (some (String.ofList value))

def take (g : Grammar α) (r : Reading α) (arg : String) : Except Misuse (Reading α) :=
  match r.awaiting with
  | some (_, u) => .ok { r.use arg u with awaiting := none }
  | none =>
    if r.ended then .ok (r.operand arg)
    else
      match arg.toList with
      | ['-', '-'] => .ok { r with ended := true }
      | '-' :: '-' :: rest => r.takeLongText g rest
      | '-' :: c :: rest => r.takeLetters g (c :: rest)
      | _ => .ok (r.operand arg)

end Reading

/-- What arguments ask for: to tell something, or to work on operands with some settings and write
outputs at some paths. -/
inductive Request (α : Type) where
  | tell (n : Notice)
  | work (settings : α) (outputs : Table String) (operands : List String)

/-- What is asked for when all arguments are read. A notice is given whatever the operands are. -/
def Reading.finish {α : Type} (r : Reading α) : Except Misuse (Request α) :=
  match r.awaiting, r.notice with
  | some (name, _), _ => .error (.missingValue name)
  | none, some n => .ok (.tell n)
  | none, none => .ok (.work r.settings r.outputs r.operands.reverse)

/-- Reads the arguments of a tool. -/
def readArguments {α : Type} (g : Grammar α) (plain : α) (args : List String) :
    Except Misuse (Request α) :=
  match args.foldlM (Reading.take g) { settings := plain } with
  | .error m => .error m
  | .ok r => r.finish

end HackToolchain.CommandLine
