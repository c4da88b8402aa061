import CallGuard.Statement
set_option autoImplicit false

/-!
# Guards

A statement is guarded when an open marker with no close marker of its own stands above it and a
close marker with no open marker of its own stands below it. Whole guards in between are stepped
over. Each search may step over `window` lines that are no markers, and the search upwards for the
sake of a statement ends at a declaration.
-/
namespace CallGuard

inductive Reason where
  | noOpen
  | declaration (line : Nat)
  | noClose
deriving DecidableEq

inductive Verdict where
  | guarded (opener closer : Nat)
  | unguarded (reason : Reason)
deriving DecidableEq

/-- Searches the lines above, the nearest first, so that a line's number is the count of the lines
after it in the list. -/
def openerAbove (d : Dialect) (stops : Bool) : (budget depth : Nat) → List Line → Except Reason Nat
  | _, _, [] => .error .noOpen
  | budget, depth, l :: above =>
    if d.opensGuard l then
      match depth with
      | 0 => .ok above.length
      | depth + 1 => openerAbove d stops budget depth above
    else if d.closesGuard l then openerAbove d stops budget (depth + 1) above
    else
      match budget with
      | 0 => .error .noOpen
      | budget + 1 =>
        if stops && d.isDeclaration l then .error (.declaration above.length)
        else openerAbove d stops budget depth above

def closerBelow (d : Dialect) : (budget depth i : Nat) → List Line → Option Nat
  | _, _, _, [] => none
  | budget, depth, i, l :: below =>
    if d.closesGuard l then
      match depth with
      | 0 => some i
      | depth + 1 => closerBelow d budget depth (i + 1) below
    else if d.opensGuard l then closerBelow d budget (depth + 1) (i + 1) below
    else
      match budget with
      | 0 => none
      | budget + 1 => closerBelow d budget depth (i + 1) below

/-- The lines above line `i`, the nearest first. A line past the end has none. -/
def linesAbove (ls : List Line) (i : Nat) : List Line :=
  if i ≤ ls.length then (ls.take i).reverse else []

def opener (d : Dialect) (stops : Bool) (ls : List Line) (i : Nat) : Except Reason Nat :=
  openerAbove d stops d.window 0 (linesAbove ls i)

def closer? (d : Dialect) (ls : List Line) (last : Nat) : Option Nat :=
  closerBelow d d.window 0 (last + 1) (ls.drop (last + 1))

def verdict (d : Dialect) (ls : List Line) (i : Nat) : Verdict :=
  match opener d true ls i with
  | .error reason => .unguarded reason
  | .ok above =>
    match closer? d ls (lastLine d ls i) with
    | some below => .guarded above below
    | none => .unguarded .noClose

end CallGuard
