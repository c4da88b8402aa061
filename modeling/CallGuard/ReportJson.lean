import CallGuard.Json
import CallGuard.Report
set_option autoImplicit false

/-!
# Reports as JSON

Only paths that are texts can be written so; `paths` has all that a report names.
-/
namespace CallGuard

def Stats.toJson (s : Stats) : Json := .object [
  ("files_scanned", .nat s.scanned), ("files_modified", .nat s.modified),
  ("statements_wrapped", .nat s.guarded), ("files_failed", .nat s.failed)]

def Outcome.toJson (o : Outcome) : Json := .object [
  ("path", .str o.path.display), ("statements_wrapped", .nat o.guarded), ("modified", .bool o.modified),
  ("unterminated", .list (o.unterminated.map .nat))]

def FailedFile.toJson (f : FailedFile) : Json := .object [
  ("path", .str f.path.display), ("message", .str f.message)]

def Residual.toJson (r : Residual) : Json := .object [
  ("path", .str r.path.display), ("line", .nat r.line), ("column", .nat r.column)]

def CoverageReport.toJson (c : CoverageReport) : Json := .object [
  ("files_checked", .nat c.checked), ("residual", .list (c.residual.map Residual.toJson))]

def CoverageReport.paths (c : CoverageReport) : List Path := c.residual.map Residual.path

def RunReport.paths (r : RunReport) : List Path :=
  r.root :: r.files.map Outcome.path ++ r.failures.map FailedFile.path ++ r.coverage.paths

def RunReport.toJson (r : RunReport) : Json := .object [
  ("root", .str r.root.display), ("dry_run", .bool r.dryRun), ("files_found", .nat r.found),
  ("stats", r.stats.toJson), ("files", .list (r.files.map Outcome.toJson)),
  ("failures", .list (r.failures.map FailedFile.toJson)), ("coverage", r.coverage.toJson)]

end CallGuard
