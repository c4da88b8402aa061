import CallGuard.Dialect
set_option autoImplicit false

/-!
# Settings

What a run is told: how much to say, which files to take, whether to write, and the dialect.
-/
namespace CallGuard

inductive Verbosity where
  | quiet
  | normal
  | verbose
  | debug
deriving DecidableEq

namespace Verbosity

/-- Quiet wins over any number of requests to say more. -/
def ofFlags (quiet : Bool) (count : Nat) : Verbosity :=
  if quiet then .quiet else
    match count with
    | 0 => .normal
    | 1 => .verbose
    | _ => .debug

def isQuiet (v : Verbosity) : Bool := v == .quiet

def isVerbose (v : Verbosity) : Bool := v == .verbose || v == .debug

def logLevel : Verbosity → String
  | .quiet => "error"
  | .normal => "warn"
  | .verbose => "info"
  | .debug => "debug"

end Verbosity

inductive Color where
  | always
  | auto
  | never
deriving DecidableEq

/-- Left to itself, colour is for terminals. -/
def Color.isShown (terminal : Bool) : Color → Bool
  | .always => true
  | .auto => terminal
  | .never => false

inductive Format where
  | text
  | json
deriving DecidableEq

structure Settings where
  verbosity : Verbosity := .normal
  color : Color := .auto
  /-- Without the leading dot. -/
  extensions : List String := ["swift"]
  excludes : List String := []
  dryRun : Bool := false
  format : Format := .text
  dialect : Dialect := Dialect.swift
deriving DecidableEq

/-- Drops leading dots and then empty extensions; when none is left, those in force stay. -/
def Settings.withExtensions (s : Settings) (extensions : List String) : Settings :=
  match (extensions.map fun e => String.ofList (e.toList.dropWhile (· == '.'))).filter (· != "") with
  | [] => s
  | kept => { s with extensions := kept }

end CallGuard
