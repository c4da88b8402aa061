import CallGuard.Call
set_option autoImplicit false

/-!
# Statements

A statement begins on the line of a call and lasts until the nesting of its delimiters closes.
Nesting is counted from the start of that line, but only a delimiter after the head of the call
can close the statement. A statement that never closes has one line.

`statements` lists the statements of a text from above: the lines inside a statement begin none.
-/
namespace CallGuard

def Glyph.opens (d : Dialect) (g : Glyph) : Bool := g.isCode d.openDelim

def Glyph.closes (d : Dialect) (g : Glyph) : Bool := !g.opens d && g.isCode d.closeDelim

/-- The depth after a stretch of characters. It never falls below zero. -/
def depthAfter (d : Dialect) (depth : Nat) : List Glyph → Nat
  | [] => depth
  | g :: gs =>
    if g.opens d then depthAfter d (depth + 1) gs
    else if g.closes d then depthAfter d (depth - 1) gs
    else depthAfter d depth gs

/-- The depth after a stretch, unless a delimiter in it takes the depth from one to zero. -/
def openDepth (d : Dialect) (depth : Nat) : List Glyph → Option Nat
  | [] => some depth
  | g :: gs =>
    if g.opens d then openDepth d (depth + 1) gs
    else if g.closes d then
      if depth = 1 then none else openDepth d (depth - 1) gs
    else openDepth d depth gs

/-- How many lines lie above the one on which the nesting closes. -/
def closingFrom (d : Dialect) (s : Scan) (depth : Nat) : List Line → Option Nat
  | [] => none
  | l :: ls =>
    match openDepth d depth (classify d s l) with
    | none => some 0
    | some n => (closingFrom d (s.after d l) n ls).map (· + 1)

/-- The same for lines of which the first holds the call. -/
def closing? (d : Dialect) : List Line → Option Nat
  | [] => none
  | l :: ls =>
    let gs := classify d {} l
    let head := (callAt? d l).getD 0 + 1
    match openDepth d (depthAfter d 0 (gs.take head)) (gs.drop head) with
    | none => some 0
    | some n => (closingFrom d (Scan.after d {} l) n ls).map (· + 1)

def extent (d : Dialect) (ls : List Line) : Nat := (closing? d ls).getD 0

def closingLine? (d : Dialect) (ls : List Line) (start : Nat) : Option Nat :=
  (closing? d (ls.drop start)).map (start + ·)

def lastLine (d : Dialect) (ls : List Line) (start : Nat) : Nat :=
  (closingLine? d ls start).getD start

structure Span where
  start : Nat
  last : Nat
deriving DecidableEq

/-- The statements from line `i` on, of which `inside` lines still belong to the one before. -/
def statementsFrom (d : Dialect) : (inside i : Nat) → List Line → List Span
  | _, _, [] => []
  | inside + 1, i, _ :: ls => statementsFrom d inside (i + 1) ls
  | 0, i, l :: ls =>
    if hasCall d l then
      ⟨i, i + extent d (l :: ls)⟩ :: statementsFrom d (extent d (l :: ls)) (i + 1) ls
    else statementsFrom d 0 (i + 1) ls

def statements (d : Dialect) (ls : List Line) : List Span := statementsFrom d 0 0 ls

end CallGuard
