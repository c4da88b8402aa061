import CallGuard.Dialect
import CallGuard.Lines
set_option autoImplicit false

/-!
# Lexical regions

Each character of a line is code, quoted, escaped or comment. Whether a string is open and whether
an escape is pending carries over from one line to the next; a comment ends with its line.
-/
namespace CallGuard

inductive Region where
  | code
  | quoted
  | escaped
  | comment
deriving DecidableEq

structure Scan where
  inQuote : Bool := false
  pending : Bool := false
deriving DecidableEq

namespace Scan

def plain (s : Scan) : Region := if s.inQuote then .quoted else .code

/-- The region of `c` and the state after it, or nothing when a comment begins at `c`. -/
def step (d : Dialect) (s : Scan) (c : Char) (rest : Text) : Option (Region × Scan) :=
  if s.pending then some (.escaped, { s with pending := false })
  else if c = d.escape then some (s.plain, { s with pending := true })
  else if c = d.quote then some (.quoted, { s with inQuote := !s.inQuote })
  else if !s.inQuote && d.lineComment.isPrefixOf (c :: rest) then none
  else some (s.plain, s)

def after (d : Dialect) (s : Scan) : Text → Scan
  | [] => s
  | c :: cs =>
    match s.step d c cs with
    | some (_, t) => t.after d cs
    | none => s

end Scan

structure Glyph where
  char : Char
  region : Region
deriving DecidableEq

def classify (d : Dialect) (s : Scan) : Text → List Glyph
  | [] => []
  | c :: cs =>
    match s.step d c cs with
    | some (r, t) => ⟨c, r⟩ :: classify d t cs
    | none => (c :: cs).map fun c => ⟨c, .comment⟩

theorem map_char_classify (d : Dialect) (s : Scan) (t : Text) :
    (classify d s t).map Glyph.char = t := by
  induction t generalizing s with
  | nil => rfl
  | cons c cs ih =>
    rw [classify]
    split
    · simp [ih]
    · simp [Function.comp_def]

theorem length_classify (d : Dialect) (s : Scan) (t : Text) :
    (classify d s t).length = t.length := by
  simpa using congrArg List.length (map_char_classify d s t)

/-- Characters with their byte offsets, that of the first being `n`. -/
def withOffsets (n : Nat) : List Glyph → List (Nat × Glyph)
  | [] => []
  | g :: gs => (n, g) :: withOffsets (n + g.char.utf8Size) gs

theorem getElem?_withOffsets (n : Nat) (gs : List Glyph) (k : Nat) : (withOffsets n gs)[k]? =
    gs[k]?.map fun g => (n + byteWidth ((gs.take k).map Glyph.char), g) := by
  induction gs generalizing n k with
  | nil => rfl
  | cons g gs ih =>
    cases k with
    | zero => simp [withOffsets, byteWidth]
    | succ k => simp [withOffsets, byteWidth, ih, Nat.add_assoc]

theorem length_withOffsets (n : Nat) (gs : List Glyph) : (withOffsets n gs).length = gs.length := by
  induction gs generalizing n with
  | nil => rfl
  | cons g gs ih => rw [withOffsets, List.length_cons, ih, List.length_cons]

def classifyLine (d : Dialect) (s : Scan) (l : Line) : List (Nat × Glyph) :=
  withOffsets 0 (classify d s l)

theorem length_classifyLine (d : Dialect) (s : Scan) (l : Line) :
    (classifyLine d s l).length = l.length := by
  rw [classifyLine, length_withOffsets, length_classify]

theorem getElem?_classifyLine (d : Dialect) (s : Scan) (l : Line) (k : Nat) :
    (classifyLine d s l)[k]? =
      (classify d s l)[k]?.map fun g => (byteWidth (l.take k), g) := by
  rw [classifyLine, getElem?_withOffsets, List.map_take, map_char_classify]
  simp

def classifyLines (d : Dialect) (s : Scan) : List Line → List (List (Nat × Glyph) × Scan)
  | [] => []
  | l :: ls => (classifyLine d s l, s.after d l) :: classifyLines d (s.after d l) ls

theorem length_classifyLines (d : Dialect) (s : Scan) (ls : List Line) :
    (classifyLines d s ls).length = ls.length := by
  induction ls generalizing s with
  | nil => rfl
  | cons l ls ih => rw [classifyLines, List.length_cons, ih, List.length_cons]

end CallGuard
