import CallGuard.Region
set_option autoImplicit false

/-!
# Calls

A call is a call token in code, not preceded by a word character, with an opening delimiter after
it; spaces and tabs may stand between. `callAt?` counts characters, `callColumn?` bytes.
-/
namespace CallGuard

def Glyph.isCode (g : Glyph) (c : Char) : Bool := g.region == .code && g.char == c

def skipBlanks : List Glyph → List Glyph
  | [] => []
  | g :: gs => if g.isCode ' ' || g.isCode '\t' then skipBlanks gs else g :: gs

def opensNext (d : Dialect) (gs : List Glyph) : Bool :=
  (skipBlanks gs).head?.any (·.isCode d.openDelim)

/-- Whether the first of these characters begins a call, given the character before it. -/
def isCallHead (d : Dialect) (before : Option Char) (g : Glyph) (gs : List Glyph) : Bool :=
  g.region == .code && isWordChar g.char && !before.any isWordChar &&
    d.callTokens.any fun token =>
      token.isPrefixOf ((g :: gs).map Glyph.char) && opensNext d ((g :: gs).drop token.length)

def callFrom (d : Dialect) (before : Option Char) : List Glyph → Option Nat
  | [] => none
  | g :: gs =>
    if isCallHead d before g gs then some 0 else (callFrom d (some g.char) gs).map (· + 1)

theorem callFrom_lt {d : Dialect} {before : Option Char} {k : Nat} {gs : List Glyph}
    (h : callFrom d before gs = some k) : k < gs.length := by
  induction gs generalizing before k with
  | nil => cases h
  | cons g gs ih =>
    rw [callFrom] at h
    split at h
    · cases h
      simp
    · obtain ⟨j, hj, rfl⟩ := Option.map_eq_some_iff.1 h
      simpa using ih hj

/-- Where the first call of a line begins, in characters. -/
def callAt? (d : Dialect) (l : Line) : Option Nat := callFrom d none (classify d {} l)

/-- Where the first call of a line begins, in bytes. -/
def callColumn? (d : Dialect) (l : Line) : Option Nat := do
  let (column, _) ← (classifyLine d {} l)[← callAt? d l]?
  return column

theorem callColumn?_eq_map (d : Dialect) (l : Line) :
    callColumn? d l = (callAt? d l).map fun k => byteWidth (l.take k) := by
  rw [callColumn?]
  cases h : callAt? d l with
  | none => rfl
  | some k =>
    have inside : k < (classify d {} l).length := callFrom_lt h
    simp [getElem?_classifyLine, List.getElem?_eq_getElem inside]

def hasCall (d : Dialect) (l : Line) : Bool := (callAt? d l).isSome

end CallGuard
