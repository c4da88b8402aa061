import CallGuard.Folder
set_option autoImplicit false

/-!
# Faults

A disk may refuse what the tree on it allows. What goes wrong is said beforehand, by the path that
is asked for, and stays so during a run.
-/
namespace CallGuard

/-- What may go wrong with an entry while its directory is listed: it is left out, or its type is
not told. -/
inductive EntryFault where
  | lost
  | untyped
deriving DecidableEq

structure Faults where
  unlistable : Path → Bool
  entry : Path → Option EntryFault
  reading : Path → Option String
  /-- Why a write fails, and what it leaves in the file. -/
  writing : Path → Option (String × ByteArray)

namespace Faults

def nowhere : Faults where
  unlistable _ := false
  entry _ := none
  reading _ := none
  writing _ := none

def readText (faults : Faults) (top : Folder) (p : Path) : Except Refusal Text :=
  match faults.reading p with
  | some why => .error (.fault why)
  | none => top.readText p

def writeText (faults : Faults) (p : Path) (t : Text) (top : Folder) : Except Refusal Unit × Folder :=
  match faults.writing p with
  | some (why, left) => (.error (.fault why), (top.write p left).toOption.getD top)
  | none =>
    match top.write p (String.ofList t).toUTF8 with
    | .error why => (.error why, top)
    | .ok after => (.ok (), after)

end Faults

end CallGuard
