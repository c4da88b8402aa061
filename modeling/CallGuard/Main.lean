import CallGuard.Program
set_option autoImplicit false

/-!
# The executable

Reads the tree below the root and the dialect file, and what the disk refuses of them. Then it writes
the files that a run changes and prints what the run says, with the writes that have failed as
further faults.
-/
namespace CallGuard.Main

def reason : IO.Error → String
  | .alreadyExists _ code why | .invalidArgument _ code why | .permissionDenied _ code why
  | .resourceExhausted _ code why | .inappropriateType _ code why | .noSuchThing _ code why
  | .noFileOrDirectory _ code why | .interrupted _ code why | .otherError code why
  | .resourceBusy code why | .resourceVanished code why | .unsupportedOperation code why
  | .hardwareFault code why | .unsatisfiedConstraints code why | .illegalOperation code why
  | .protocolError code why | .timeExpired code why => s!"{why} (os error {code})"
  | .userError why => why
  | .unexpectedEof => "unexpected end of file"

/-- Looks at a disk and notes what it refuses. -/
abbrev Survey := StateT Faults IO

def noteUnlistable (dir : Path) : Survey Unit :=
  modify fun f => { f with unlistable := fun p => p == dir || f.unlistable p }

def noteUnreadable (file : Path) (why : String) : Survey Unit :=
  modify fun f => { f with reading := fun p => if p = file then some why else f.reading p }

def noteUnwritable (file : Path) (why : String) (left : ByteArray) : Survey Unit :=
  modify fun f => { f with writing := fun p => if p = file then some (why, left) else f.writing p }

def content (file : Path) : Survey ByteArray := do
  match ← (IO.FS.readBinFile file.display).toBaseIO with
  | .ok c => return c
  | .error e =>
    noteUnreadable file (reason e)
    return .empty

def entries (dir : Path) : IO (Array IO.FS.DirEntry) := do
  (← IO.FS.realPath dir.display).readDir

/-- The listing of a directory. Links and what is no file play no part in a run, and neither does an
entry whose type is not told. -/
partial def listing (dir : Path) : Survey Folder := do
  match ← (entries dir).toBaseIO with
  | .error _ =>
    noteUnlistable dir
    return .nil
  | .ok found =>
    found.toList.foldrM (fun entry rest => do
      let n := utf8 entry.fileName
      match ← entry.path.symlinkMetadata.toBaseIO with
      | .error _ => return rest
      | .ok m =>
        match m.type with
        | .dir => return .dir n (← listing (dir.join n)) rest
        | .file => return .file n (← content (dir.join n)) rest
        | _ => return rest) .nil

def isDirectory (p : Path) : IO Bool := do
  try return (← (← IO.FS.realPath p.display).metadata).type == .dir
  catch _ => return false

/-- Puts an entry where some steps lead, through directories made on the way. -/
def graft (e : Entry) : List Name → List Step → Folder → Folder
  | [], [], top =>
    match e with
    | .dir inner => inner
    | _ => top
  | here, [], top => top.put e here
  | here, .stay :: steps, top => graft e here steps top
  | here, .up :: steps, top => graft e here.dropLast steps top
  | here, .down n :: steps, top =>
    let next := here ++ [n]
    match top.at? next with
    | some (.dir _) => graft e next steps top
    | _ => graft e next steps (top.put (.dir .nil) next)

def gather (i : Invocation) : Survey Folder := do
  let top ←
    if ← isDirectory i.path then pure (graft (.dir (← listing i.path)) [] i.path.steps .nil)
    else pure .nil
  match i.config with
  | none => return top
  | some p => return graft (.file (← content p)) [] p.steps top

/-- The files below the root whose content is new, with the old content and the new one. -/
def changes (root : Path) (before after : Folder) : List (Path × ByteArray × ByteArray) :=
  match before.locate root with
  | .error _ => []
  | .ok loc =>
    (after.files []).filterMap fun (l, new) =>
      match before.at? l with
      | some (.file old) =>
        if old.data == new.data then none else some (root.below (l.drop loc.length), old, new)
      | _ => none

def write (p : Path) (old new : ByteArray) : Survey Unit := do
  match ← (IO.FS.writeBinFile p.display new).toBaseIO with
  | .ok () => return ()
  | .error e =>
    let left ← (IO.FS.readBinFile p.display).toBaseIO
    noteUnwritable p (reason e) (left.toOption.getD old)

def perform (i : Invocation) (terminal : Bool) : Survey Printed := do
  let before ← gather i
  let (_, after) := i.run (← get) terminal before
  for (p, old, new) in changes i.path before after do
    write p old new
  -- what a failed write leaves changes what the run says and not what it writes elsewhere
  return (i.run (← get) terminal before).1

def run (args : List String) : IO UInt32 := do
  let out ← IO.getStdout
  let terminal ← out.isTty
  let printed ← match Invocation.ofArguments args with
    | .error h => pure (Printed.ofHalt h)
    | .ok i => (perform i terminal).run' .nowhere
  let printed ←
    try
      out.putStr printed.out
      out.flush
      pure printed
    catch e => pure (Printed.ofFailure (.output (reason e)))
  (← IO.getStderr).putStr printed.err
  return printed.status.toUInt32

end CallGuard.Main

def main (args : List String) : IO UInt32 := CallGuard.Main.run args
