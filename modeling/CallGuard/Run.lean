import CallGuard.Candidates
import CallGuard.Coverage
import CallGuard.Insertion
import CallGuard.Report
set_option autoImplicit false

/-!
# Runs

`guardTree` guards the calls in every candidate below a root and checks the coverage afterwards. It
answers with the tree as it leaves it, also when it fails. `checkTree` only checks. On a disk with
faults they are `guardTreeOn` and `checkTreeOn`.
-/
namespace CallGuard

def readSource (faults : Faults) (top : Folder) (p : Path) : Except LibraryFailure Text :=
  (faults.readText top p).mapError fun why => .unreadable p why.message

/-- Guards the calls of one file. It is written only when its text has changed. -/
def guardFile (faults : Faults) (d : Dialect) (dryRun : Bool) (p : Path) (top : Folder) :
    Except Failure Outcome × Folder :=
  match readSource faults top p with
  | .error f => (.error (.ofReading f), top)
  | .ok t =>
    let g := guardText d t
    let modified := g.output != t
    let outcome := ⟨p, g.count, modified, g.unterminated.map (· + 1)⟩
    if modified && !dryRun then
      match faults.writeText p g.output top with
      | (.error why, after) => (.error (.unwritable p why.message), after)
      | (.ok _, after) => (.ok outcome, after)
    else (.ok outcome, top)

structure Tally where
  stats : Stats := {}
  files : List Outcome := []
  failures : List FailedFile := []
deriving DecidableEq

namespace Tally

def record (t : Tally) (o : Outcome) : Tally :=
  { t with
    stats := t.stats.record o
    files := if o.modified then t.files ++ [o] else t.files }

def recordFailure (t : Tally) (p : Path) (f : Failure) : Tally :=
  { t with
    stats := t.stats.recordFailure
    failures := t.failures ++ [⟨p, f.message⟩] }

end Tally

/-- Guards file after file. A failure that is not fatal is recorded, and the run goes on. -/
def guardFiles (faults : Faults) (d : Dialect) (dryRun : Bool) :
    List Path → Tally → Folder → Except Failure Tally × Folder
  | [], tally, top => (.ok tally, top)
  | p :: ps, tally, top =>
    match guardFile faults d dryRun p top with
    | (.ok o, after) => guardFiles faults d dryRun ps (tally.record o) after
    | (.error f, after) =>
      if f.isFatal then (.error f, after)
      else guardFiles faults d dryRun ps (tally.recordFailure p f) after

/-- Checks the coverage of some files and passes over those that cannot be read. -/
def checkFiles (faults : Faults) (d : Dialect) (top : Folder) : List Path → CoverageReport
  | [] => {}
  | p :: ps =>
    let later := checkFiles faults d top ps
    match readSource faults top p with
    | .error _ => later
    | .ok t =>
      { checked := later.checked + 1
        residual :=
          (uncovered d (splitLines t)).map (fun u => ⟨p, u.line + 1, u.column + 1⟩) ++
            later.residual }

/-- The candidates below a root. The root is looked at before the patterns are. -/
def candidatesBelow (faults : Faults) (s : Settings) (root : Path) (top : Folder) :
    Except Failure (List Path) :=
  if (top.directory? root).isNone then .error (.missingRoot root)
  else (Selection.ofSettings s).map fun selection => selection.candidates faults top root

def guardTreeOn (faults : Faults) (s : Settings) (root : Path) (top : Folder) :
    Except Failure RunReport × Folder :=
  match candidatesBelow faults s root top with
  | .error f => (.error f, top)
  | .ok paths =>
    match guardFiles faults s.dialect s.dryRun paths {} top with
    | (.error f, after) => (.error f, after)
    | (.ok tally, after) =>
      (.ok { root
             dryRun := s.dryRun
             found := paths.length
             stats := tally.stats
             files := tally.files
             failures := tally.failures
             coverage := checkFiles faults s.dialect after paths }, after)

def guardTree (s : Settings) (root : Path) (top : Folder) : Except Failure RunReport × Folder :=
  guardTreeOn .nowhere s root top

def checkTreeOn (faults : Faults) (s : Settings) (root : Path) (top : Folder) :
    Except Failure CoverageReport :=
  (candidatesBelow faults s root top).map (checkFiles faults s.dialect top)

def checkTree (s : Settings) (root : Path) (top : Folder) : Except Failure CoverageReport :=
  checkTreeOn .nowhere s root top

end CallGuard
