import CallGuard.Blank
set_option autoImplicit false

/-!
# Lines

A line keeps its terminator, so that joining the lines of a text gives the text back. Only a line
feed ends a line. Widths and columns are counted in UTF-8 bytes.
-/
namespace CallGuard

abbrev Line := List Char

def splitLines : Text → List Line
  | [] => []
  | c :: cs =>
    if c = '\n' then ['\n'] :: splitLines cs
    else match splitLines cs with
      | [] => [[c]]
      | l :: ls => (c :: l) :: ls

def joinLines (ls : List Line) : Text := ls.flatten

theorem joinLines_splitLines (t : Text) : joinLines (splitLines t) = t := by
  induction t with
  | nil => rfl
  | cons c cs ih =>
    by_cases h : c = '\n'
    · simpa [splitLines, joinLines, h] using ih
    · cases hs : splitLines cs <;> simp_all [splitLines, joinLines]

def byteWidth : Text → Nat
  | [] => 0
  | c :: cs => c.utf8Size + byteWidth cs

theorem byteWidth_append (t u : Text) : byteWidth (t ++ u) = byteWidth t + byteWidth u := by
  induction t with
  | nil => simp [byteWidth]
  | cons c cs ih => simp [byteWidth, ih, Nat.add_assoc]

/-- The blanks a line begins with; the terminator is no part of them. -/
def indent (l : Line) : Text := l.takeWhile fun c => isBlank c && c != '\r' && c != '\n'

def terminator (l : Line) : Text :=
  match l.reverse with
  | '\n' :: '\r' :: _ => ['\r', '\n']
  | '\n' :: _ => ['\n']
  | _ => []

end CallGuard
