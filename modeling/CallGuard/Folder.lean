import CallGuard.Path
set_option autoImplicit false

/-!
# Folders

A folder is the listing of a directory with all that lies below it. A location is the chain of
names that leads to an entry without passing through a link.
-/
namespace CallGuard

inductive Folder where
  | nil
  | file (name : Name) (content : ByteArray) (rest : Folder)
  | link (name : Name) (target : Path) (rest : Folder)
  | dir (name : Name) (inner rest : Folder)
deriving Inhabited

inductive Entry where
  | file (content : ByteArray)
  | link (target : Path)
  | dir (inner : Folder)

namespace Folder

def find? (n : Name) : Folder → Option Entry
  | nil => none
  | file m c rest => if m = n then some (.file c) else rest.find? n
  | link m t rest => if m = n then some (.link t) else rest.find? n
  | dir m inner rest => if m = n then some (.dir inner) else rest.find? n

def cons (n : Name) (e : Entry) (f : Folder) : Folder :=
  match e with
  | .file c => file n c f
  | .link t => link n t f
  | .dir inner => dir n inner f

/-- Replaces the entry of that name, or lists a new one last. -/
def insert (n : Name) (e : Entry) : Folder → Folder
  | nil => cons n e nil
  | file m c rest => if m = n then cons n e rest else file m c (rest.insert n e)
  | link m t rest => if m = n then cons n e rest else link m t (rest.insert n e)
  | dir m inner rest => if m = n then cons n e rest else dir m inner (rest.insert n e)

def at? (f : Folder) : List Name → Option Entry
  | [] => some (.dir f)
  | n :: ns =>
    match f.find? n with
    | some (.dir inner) => inner.at? ns
    | some e => if ns = [] then some e else none
    | none => none

/-- Puts an entry at a location and makes the directories on the way to it. -/
def put (e : Entry) : List Name → Folder → Folder
  | [], f => f
  | [n], f => f.insert n e
  | n :: m :: ns, f =>
    match f.find? n with
    | some (.dir inner) => f.insert n (.dir (put e (m :: ns) inner))
    | _ => f.insert n (.dir (put e (m :: ns) nil))

def files (above : List Name) : Folder → List (List Name × ByteArray)
  | nil => []
  | file n c rest => (above ++ [n], c) :: rest.files above
  | link _ _ rest => rest.files above
  | dir n inner rest => inner.files (above ++ [n]) ++ rest.files above

end Folder

inductive Refusal where
  | missing
  | notDirectory
  | isDirectory
  | tooManyLinks
  | notText
  | fault (why : String)
deriving DecidableEq

def Refusal.message : Refusal → String
  | .missing => "No such file or directory (os error 2)"
  | .notDirectory => "Not a directory (os error 20)"
  | .isDirectory => "Is a directory (os error 21)"
  | .tooManyLinks => "Too many levels of symbolic links (os error 40)"
  | .notText => "stream did not contain valid UTF-8"
  | .fault why => why

namespace Folder

/-- Takes steps from a location. `onLink` goes on from a location with the steps of a link and
those after it. -/
def walk (top : Folder) (onLink : List Name → List Step → Except Refusal (List Name)) :
    List Name → List Step → Except Refusal (List Name)
  | here, [] => .ok here
  | here, s :: steps =>
    match top.at? here with
    | some (.dir inner) =>
      match s with
      | .stay => walk top onLink here steps
      | .up => walk top onLink here.dropLast steps
      | .down n =>
        match inner.find? n with
        | none => .error .missing
        | some (.link target) =>
          if target = [] then .error .missing
          else onLink (if target.isAbsolute then [] else here) (target.steps ++ steps)
        | some _ => walk top onLink (here ++ [n]) steps
    | _ => .error .notDirectory

def follow (top : Folder) : Nat → List Name → List Step → Except Refusal (List Name)
  | 0 => top.walk fun _ _ => .error .tooManyLinks
  | links + 1 => top.walk (follow top links)

def maxLinks : Nat := 40

def locate (top : Folder) (p : Path) : Except Refusal (List Name) :=
  if p = [] then .error .missing else top.follow maxLinks [] p.steps

def directory? (top : Folder) (p : Path) : Option Folder :=
  match top.locate p with
  | .error _ => none
  | .ok loc =>
    match top.at? loc with
    | some (.dir inner) => some inner
    | _ => none

def readText (top : Folder) (p : Path) : Except Refusal Text := do
  match top.at? (← top.locate p) with
  | some (.file content) =>
    match String.fromUTF8? content with
    | some s => .ok s.toList
    | none => .error .notText
  | some (.dir _) => .error .isDirectory
  | _ => .error .missing

/-- Gives a file that exists a new content. -/
def write (top : Folder) (p : Path) (content : ByteArray) : Except Refusal Folder := do
  let loc ← top.locate p
  match top.at? loc with
  | some (.file _) => .ok (top.put (.file content) loc)
  | some (.dir _) => .error .isDirectory
  | _ => .error .missing

end Folder

end CallGuard
