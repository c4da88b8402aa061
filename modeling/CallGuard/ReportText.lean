import CallGuard.Report
set_option autoImplicit false

/-!
# Reports as text

A report in words. Each line about a file begins with a mark; where colour is wanted the mark is a
sign, and on a terminal that sign is coloured.
-/
namespace CallGuard

structure Style where
  color : Bool := false
  terminal : Bool := false
deriving DecidableEq

inductive Mark where
  | ok
  | warn
  | fail
deriving DecidableEq

namespace Mark

def word : Mark → String
  | ok => "OK"
  | warn => "WARN"
  | fail => "FAIL"

def sign : Mark → String
  | ok => "✓"
  | warn => "⚠"
  | fail => "✗"

def colorCode : Mark → Nat
  | ok => 32
  | warn => 33
  | fail => 31

def render (s : Style) (m : Mark) : String :=
  if !s.color then m.word
  else if s.terminal then s!"\x1b[{m.colorCode}m\x1b[1m{m.sign}\x1b[0m"
  else m.sign

end Mark

def unlines (ls : List String) : String := String.join (ls.map (· ++ "\n"))

def ruler : String := String.ofList (List.replicate 60 '=')

namespace CoverageReport

def count (c : CoverageReport) : Nat := c.residual.length

/-- The residual calls are listed only when details are asked for. -/
def toText (s : Style) (detailed : Bool) (c : CoverageReport) : String :=
  let mark := (if c.count = 0 then Mark.ok else Mark.warn).render s
  let heading := [
    "Verifying...",
    s!"{mark} Residual unwrapped calls: {c.count} (in {c.checked} files checked)"]
  let calls := c.residual.map fun r => s!"  {r.path.display}:{r.line}:{r.column}"
  unlines (heading ++ if detailed then calls else [])

end CoverageReport

namespace RunReport

def verb (r : RunReport) : String := if r.dryRun then "Would wrap" else "Wrapped"

def outcomeLines (s : Style) (r : RunReport) (o : Outcome) : List String :=
  s!"{Mark.ok.render s} {o.path.display}: {r.verb} {o.guarded} statement(s)" ::
    o.unterminated.map fun line =>
      s!"  {Mark.warn.render s} line {line}: statement never closes, guarded first line only"

def toText (s : Style) (detailed : Bool) (r : RunReport) : String :=
  let n := r.stats
  let failures := r.failures.map fun f => s!"{Mark.fail.render s} {f.path.display}: {f.message}"
  unlines ([s!"Found {r.found} source files", ""] ++
      r.files.flatMap (r.outcomeLines s) ++ failures ++ [
      "",
      ruler,
      s!"{Mark.ok.render s} Complete! {r.verb} {n.guarded} statements across {n.modified} files",
      s!"  files scanned: {n.scanned}, files modified: {n.modified}, " ++
        s!"statements wrapped: {n.guarded}, files failed: {n.failed}",
      ruler,
      ""]) ++
    r.coverage.toText s detailed

end RunReport

end CallGuard
