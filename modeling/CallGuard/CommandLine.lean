import CallGuard.Path
import CallGuard.Settings
set_option autoImplicit false

/-!
# The command line

Some arguments belong to the tool, more to each of its two commands; those of the tool may also
follow the command, and then count for more. A value is attached to its option or follows it. An
option is complete only when the next argument is read, so what is wrong with its value shows
there.
-/
namespace CallGuard

inductive Command where
  | wrap
  | check
deriving DecidableEq

def Command.name : Command → String
  | .wrap => "wrap"
  | .check => "check"

def Command.ofName? (s : String) : Option Command :=
  if s = Command.wrap.name then some .wrap
  else if s = Command.check.name then some .check
  else none

inductive Halt where
  | help
  | version (command : Option Command)
  | noArguments
  | noCommand
  | unknownCommand
  | unknownArgument
  | repeatedArgument
  | badValue
  | needlessValue
deriving DecidableEq

inductive Argument where
  | verbose
  | quiet
  | color
  | help
  | version
  | extension
  | exclude
  | config
  | format
  | dryRun
  | deny
  | path
deriving DecidableEq

namespace Argument

def ofLong? (command : Option Command) (name : String) : Option Argument :=
  match name with
  | "verbose" => some verbose
  | "quiet" => some quiet
  | "color" => some color
  | "help" => some help
  | "version" => some version
  | "ext" => command.map fun _ => extension
  | "exclude" => command.map fun _ => exclude
  | "config" => command.map fun _ => config
  | "format" => command.map fun _ => format
  | "dry-run" => if command = some .wrap then some dryRun else none
  | "deny" => if command = some .check then some deny else none
  | _ => none

def ofShort? (command : Option Command) (c : Char) : Option Argument :=
  match c with
  | 'v' => some verbose
  | 'q' => some quiet
  | 'h' => some help
  | 'V' => some version
  | 'e' => command.map fun _ => extension
  | 'c' => command.map fun _ => config
  | _ => none

def takesValue : Argument → Bool
  | color | extension | exclude | config | format | path => true
  | _ => false

end Argument

def Color.ofName? : String → Option Color
  | "always" => some .always
  | "auto" => some .auto
  | "never" => some .never
  | _ => none

def Format.ofName? : String → Option Format
  | "text" => some .text
  | "json" => some .json
  | _ => none

structure Given where
  verbose : Nat := 0
  quiet : Bool := false
  color : Option Color := none
  path : Option Path := none
  extensions : List String := []
  excludes : List String := []
  config : Option Path := none
  format : Option Format := none
  dryRun : Bool := false
  deny : Bool := false
deriving DecidableEq

namespace Given

def maxVerbose : Nat := 255

def once {α : Type} (before value : Option α) : Except Halt (Option α) :=
  if before.isSome then .error .repeatedArgument
  else if value.isNone then .error .badValue
  else .ok value

def path? (s : String) : Option Path := if s = "" then none else some s

def setValue (g : Given) (a : Argument) (value : String) : Except Halt Given :=
  match a with
  | .color => (once g.color (Color.ofName? value)).map ({ g with color := · })
  | .config => (once g.config (path? value)).map ({ g with config := · })
  | .format => (once g.format (Format.ofName? value)).map ({ g with format := · })
  | .path => (once g.path (path? value)).map ({ g with path := · })
  | .extension => .ok { g with extensions := g.extensions ++ [value] }
  | .exclude => .ok { g with excludes := g.excludes ++ [value] }
  | _ => .error .needlessValue

def setFlag (g : Given) (command : Option Command) (a : Argument) : Except Halt Given :=
  match a with
  | .verbose => .ok { g with verbose := min (g.verbose + 1) maxVerbose }
  | .quiet => if g.quiet then .error .repeatedArgument else .ok { g with quiet := true }
  | .dryRun => if g.dryRun then .error .repeatedArgument else .ok { g with dryRun := true }
  | .deny => if g.deny then .error .repeatedArgument else .ok { g with deny := true }
  | .help => .error .help
  | .version => .error (.version command)
  | _ => .error .badValue

end Given

structure Reading where
  given : Given := {}
  /-- The last option or path, with its value if that is known. -/
  pending : Option (Argument × Option String) := none
  /-- After two dashes everything is a path. -/
  onlyPaths : Bool := false
  hasPath : Bool := false

namespace Reading

def isWaiting (r : Reading) : Bool := r.pending.any fun p => p.2.isNone

def settle (r : Reading) : Except Halt Reading :=
  match r.pending with
  | none => .ok r
  | some (_, none) => .error .badValue
  | some (a, some value) => do return { r with given := ← r.given.setValue a value, pending := none }

def flag (command : Option Command) (a : Argument) (r : Reading) : Except Halt Reading := do
  let r ← r.settle
  return { r with given := ← r.given.setFlag command a }

def attached (a : Argument) (value : String) (r : Reading) : Except Halt Reading := do
  let r ← r.settle
  return { r with given := ← r.given.setValue a value }

def await (a : Argument) (value : Option String) (r : Reading) : Except Halt Reading := do
  return { ← r.settle with pending := some (a, value) }

def long (command : Option Command) (t : Text) (r : Reading) : Except Halt Reading :=
  let name := t.takeWhile (· != '=')
  let value := if name.length < t.length then some (String.ofList (t.drop (name.length + 1))) else none
  match Argument.ofLong? command (String.ofList name), value with
  | none, _ => .error .unknownArgument
  | some a, none => if a.takesValue then r.await a none else r.flag command a
  | some a, some value => if a.takesValue then r.attached a value else .error .needlessValue

/-- The letters behind one dash. What follows the letter of an option is its value. -/
def short (command : Option Command) : Text → Reading → Except Halt Reading
  | [], r => .ok r
  | c :: cs, r =>
    match Argument.ofShort? command c with
    | none => .error .unknownArgument
    | some a =>
      if !a.takesValue then do short command cs (← r.flag command a)
      else match cs with
        | [] => r.await a none
        | '=' :: value => r.attached a (String.ofList value)
        | _ => r.attached a (String.ofList cs)

/-- An argument that is no option. Only a command takes one, its path. One too many is refused
before what is pending is looked at. -/
def positional (command : Option Command) (s : String) (r : Reading) : Except Halt Reading :=
  let isCommand := (Command.ofName? s).isSome || s == "help"
  if command.isSome && !r.hasPath then do return { ← r.await .path (some s) with hasPath := true }
  else if command.isNone && !(r.onlyPaths && isCommand) then .error .unknownCommand
  else .error .unknownArgument

def argument (command : Option Command) (s : String) (r : Reading) : Except Halt Reading :=
  if r.onlyPaths then r.positional command s
  else match s.toList with
    | ['-', '-'] => .ok { r with onlyPaths := true }
    | '-' :: '-' :: t => r.long command t
    | '-' :: c :: cs => r.short command (c :: cs)
    | _ =>
      match r.pending with
      | some (a, none) => .ok { r with pending := some (a, some s) }
      | _ => r.positional command s

def all (command : Option Command) : List String → Reading → Except Halt Reading
  | [], r => r.settle
  | s :: ss, r => do all command ss (← r.argument command s)

end Reading

def helpOn : List String → Halt
  | [] => .help
  | [topic] => if (Command.ofName? topic).isSome || topic == "help" then .help else .unknownCommand
  | _ => .unknownCommand

structure Invocation where
  verbose : Nat
  quiet : Bool
  color : Color
  command : Command
  path : Path
  extensions : List String
  excludes : List String
  config : Option Path
  format : Format
  dryRun : Bool
  deny : Bool
deriving DecidableEq

namespace Invocation

def ofGiven (command : Command) (before after : Given) : Invocation where
  verbose := if after.verbose = 0 then before.verbose else after.verbose
  quiet := before.quiet || after.quiet
  color := (after.color.or before.color).getD .auto
  command := command
  path := after.path.getD "."
  extensions := after.extensions
  excludes := after.excludes
  config := after.config
  format := after.format.getD .text
  dryRun := after.dryRun
  deny := after.deny

/-- Reads the arguments before the command, which may begin wherever no value is awaited. What is
wrong after the command is found before a value that is still pending. -/
def readFrom (r : Reading) : List String → Except Halt Invocation
  | [] => do
    let r ← r.settle
    throw (if r.given = {} then .noArguments else .noCommand)
  | s :: ss =>
    let mayBegin := !r.onlyPaths && !r.isWaiting
    if mayBegin && s == "help" then .error (helpOn ss)
    else match if mayBegin then Command.ofName? s else none with
      | some command => do
        let after ← Reading.all (some command) ss {}
        return ofGiven command (← r.settle).given after.given
      | none => do readFrom (← r.argument none s) ss

def ofArguments (args : List String) : Except Halt Invocation := readFrom {} args

def settings (i : Invocation) (d : Dialect) : Settings :=
  { ({ verbosity := .ofFlags i.quiet i.verbose, color := i.color } : Settings).withExtensions
      i.extensions with
    excludes := i.excludes
    format := i.format
    dialect := d
    dryRun := i.dryRun }

end Invocation

end CallGuard
