import CallGuard.Path
set_option autoImplicit false

/-!
# Failures

What can go wrong in a run. A file that cannot be read or written costs that file only; everything
else ends the run. The library has failures of its own, which the tool passes on.
-/
namespace CallGuard

inductive LibraryFailure where
  | invalidDialect (what : String)
  | unreadable (source : Path) (why : String)
deriving DecidableEq

def LibraryFailure.message : LibraryFailure → String
  | invalidDialect what => s!"Invalid dialect: {what}"
  | unreadable source why => s!"Cannot read {source.display}: {why}"

inductive Failure where
  | missingRoot (root : Path)
  | unreadable (file : Path) (why : String)
  | unwritable (file : Path) (why : String)
  | configuration (what : String)
  | library (f : LibraryFailure)
  | output (why : String)
  | serialization (what : String)
deriving DecidableEq

namespace Failure

def message : Failure → String
  | missingRoot root => s!"Directory {root.display} not found"
  | unreadable file why => s!"Error reading {file.display}: {why}"
  | unwritable file why => s!"Error writing {file.display}: {why}"
  | configuration what => s!"Configuration error: {what}"
  | library f => f.message
  | output why => s!"I/O error: {why}"
  | serialization what => s!"Serialization error: {what}"

def isFatal : Failure → Bool
  | unreadable _ _ | unwritable _ _ => false
  | _ => true

def ofReading : LibraryFailure → Failure
  | .unreadable source why => unreadable source why
  | other => library other

end Failure

end CallGuard
