import CallGuard.Failure
set_option autoImplicit false

/-!
# Reports

What a run has done. Lines and columns count from one.
-/
namespace CallGuard

structure Stats where
  scanned : Nat := 0
  modified : Nat := 0
  guarded : Nat := 0
  failed : Nat := 0
deriving DecidableEq

structure Outcome where
  path : Path
  guarded : Nat
  modified : Bool
  unterminated : List Nat
deriving DecidableEq

def Stats.record (s : Stats) (o : Outcome) : Stats :=
  { s with
    scanned := s.scanned + 1
    guarded := s.guarded + o.guarded
    modified := if o.modified then s.modified + 1 else s.modified }

def Stats.recordFailure (s : Stats) : Stats := { s with failed := s.failed + 1 }

structure FailedFile where
  path : Path
  message : String
deriving DecidableEq

structure Residual where
  path : Path
  line : Nat
  column : Nat
deriving DecidableEq

structure CoverageReport where
  checked : Nat := 0
  residual : List Residual := []
deriving DecidableEq

structure RunReport where
  root : Path
  dryRun : Bool
  found : Nat
  stats : Stats
  files : List Outcome
  failures : List FailedFile
  coverage : CoverageReport
deriving DecidableEq

end CallGuard
