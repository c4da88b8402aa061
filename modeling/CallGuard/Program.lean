import CallGuard.CommandLine
import CallGuard.DialectFile
import CallGuard.ReportJson
import CallGuard.ReportText
import CallGuard.Run
set_option autoImplicit false

/-!
# The program

What a command line does to a tree of files, and what it prints. The dialect is loaded before the
root is looked at.
-/
namespace CallGuard

def programName : String := "guardwrap"

def programVersion : String := "0.1.0"

def usage : String :=
  unlines [
    s!"Usage: {programName} [OPTIONS] <COMMAND>",
    "",
    "Commands:",
    "  wrap   Wrap unguarded print calls in place",
    "  check  Report unguarded print calls without changing anything",
    "  help   Print this message",
    "",
    "Options:",
    "  -v, --verbose        Say more (-v, -vv)",
    "  -q, --quiet          Say nothing but errors",
    "      --color <COLOR>  auto, always or never",
    "  -h, --help           Print help",
    "  -V, --version        Print version",
    "",
    "Options of both commands:",
    "  -e, --ext <EXT>        File extension to process, repeatable",
    "      --exclude <GLOB>   Paths to skip, repeatable",
    "  -c, --config <FILE>    YAML dialect file",
    "      --format <FORMAT>  text or json",
    "      --dry-run          wrap: change nothing",
    "      --deny             check: fail when calls are left"]

def Halt.message : Halt → String
  | .help => usage
  | .version none => unlines [s!"{programName} {programVersion}"]
  | .version (some command) => unlines [s!"{programName}-{command.name} {programVersion}"]
  | .noArguments => usage
  | .noCommand => "error: a command is required\n"
  | .unknownCommand => "error: unrecognized command\n"
  | .unknownArgument => "error: unexpected argument\n"
  | .repeatedArgument => "error: an argument cannot be used multiple times\n"
  | .badValue => "error: a value is missing or invalid\n"
  | .needlessValue => "error: a value is given to an argument that takes none\n"

def Halt.isAnswer : Halt → Bool
  | .help | .version _ => true
  | _ => false

structure Printed where
  status : Nat
  out : String
  err : String
deriving DecidableEq

namespace Printed

def ofHalt (h : Halt) : Printed :=
  if h.isAnswer then ⟨0, h.message, ""⟩ else ⟨2, "", h.message⟩

def ofFailure (f : Failure) : Printed := ⟨1, "", s!"Error: {f.message}\n"⟩

end Printed

def Settings.style (s : Settings) (terminal : Bool) : Style :=
  { color := s.color.isShown terminal, terminal }

/-- JSON is printed even when the run is quiet, but only if all paths in it are texts. -/
def Settings.present (s : Settings) (paths : List Path) (json : Json) (text : Bool → String) :
    Except Failure String :=
  match s.format with
  | .json =>
    if paths.all fun p => p.text?.isSome then .ok (json.render ++ "\n")
    else .error (.serialization "path contains invalid UTF-8 characters")
  | .text => .ok (if s.verbosity.isQuiet then "" else text s.verbosity.isVerbose)

def Printed.ofReport (status : Nat) : Except Failure String → Printed
  | .error f => .ofFailure f
  | .ok out => ⟨status, out, ""⟩

def runWrap (faults : Faults) (s : Settings) (terminal : Bool) (root : Path) (top : Folder) :
    Printed × Folder :=
  match guardTreeOn faults s root top with
  | (.error f, after) => (.ofFailure f, after)
  | (.ok r, after) =>
    (.ofReport 0 (s.present r.paths r.toJson (r.toText (s.style terminal))), after)

/-- With `deny` residual calls make the check fail. -/
def runCheck (faults : Faults) (s : Settings) (terminal deny : Bool) (root : Path) (top : Folder) :
    Printed :=
  match checkTreeOn faults s root top with
  | .error f => .ofFailure f
  | .ok c =>
    .ofReport (if deny && c.count != 0 then 1 else 0)
      (s.present c.paths c.toJson (c.toText (s.style terminal)))

/-- Carries out an invocation. `terminal` says whether the output goes to a terminal. -/
def Invocation.run (faults : Faults) (i : Invocation) (terminal : Bool) (top : Folder) :
    Printed × Folder :=
  match DialectFile.load faults top i.config with
  | .error f => (.ofFailure f, top)
  | .ok d =>
    match i.command with
    | .wrap => runWrap faults (i.settings d) terminal i.path top
    | .check => (runCheck faults (i.settings d) terminal i.deny i.path top, top)

def runProgram (faults : Faults) (args : List String) (terminal : Bool) (top : Folder) :
    Printed × Folder :=
  match Invocation.ofArguments args with
  | .error h => (.ofHalt h, top)
  | .ok i => i.run faults terminal top

end CallGuard
