import CallGuard.Failure
import CallGuard.Faults
import CallGuard.Glob
import CallGuard.Settings
set_option autoImplicit false

/-!
# Candidates

The files a run takes: the regular files below the root that have a wanted extension. Hidden and
excluded entries are left out with all that lies below them, and no link is followed. So is what
the disk does not tell.
-/
namespace CallGuard

structure Selection where
  extensions : List String
  excludes : List (Path → Bool)

namespace Selection

def readExcludes : List String → Except Failure (List Glob)
  | [] => .ok []
  | pattern :: patterns =>
    match Glob.ofPattern pattern with
    | .error fault =>
      .error (.configuration s!"invalid exclude pattern '{pattern}': {fault.message}")
    | .ok glob => (readExcludes patterns).map (glob :: ·)

def ofSettings (s : Settings) : Except Failure Selection :=
  (readExcludes s.excludes).map fun globs => ⟨s.extensions, globs.map Glob.matchesPath⟩

/-- A pattern speaks of the path below the root or of the whole path. -/
def isExcluded (s : Selection) (root : Path) (chain : List Name) : Bool :=
  s.excludes.any fun accepts => accepts (Path.ofChain chain) || accepts (root.below chain)

def isSkipped (s : Selection) (faults : Faults) (root : Path) (above : List Name) (n : Name) :
    Bool :=
  let fault := faults.entry (root.below (above ++ [n]))
  fault == some .lost || n.isHidden || s.isExcluded root (above ++ [n]) || fault == some .untyped

def wants (s : Selection) (n : Name) : Bool :=
  (n.extension?.bind Bytes.text?).any s.extensions.contains

/-- The chains of names that lead from the root to the files taken, in the order of the listing. -/
def chains (s : Selection) (faults : Faults) (root : Path) (above : List Name) :
    Folder → List (List Name)
  | .nil => []
  | .file n _ rest =>
    if !s.isSkipped faults root above n && s.wants n then
      (above ++ [n]) :: s.chains faults root above rest
    else s.chains faults root above rest
  | .link _ _ rest => s.chains faults root above rest
  | .dir n inner rest =>
    if s.isSkipped faults root above n || faults.unlistable (root.below (above ++ [n])) then
      s.chains faults root above rest
    else s.chains faults root (above ++ [n]) inner ++ s.chains faults root above rest

def walk (s : Selection) (faults : Faults) (root : Path) (inner : Folder) : List (List Name) :=
  if faults.unlistable root then [] else s.chains faults root [] inner

/-- The paths of the files taken, component by component in order. -/
def candidates (s : Selection) (faults : Faults) (top : Folder) (root : Path) : List Path :=
  match top.directory? root with
  | none => []
  | some inner => ((s.walk faults root inner).mergeSort chainLe).map root.below

end Selection

end CallGuard
