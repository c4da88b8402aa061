import CallGuard.Guard
set_option autoImplicit false

/-!
# The insertion of guards

Each unguarded statement gets a block: a marker line before it and one after it, indented like its
first line and terminated like it. All other text stays as it is. A text without a final
terminator keeps ending without one.
-/
namespace CallGuard

structure Block where
  start : Nat
  last : Nat
  /-- The width of the indentation in bytes. -/
  indent : Nat
  reason : Reason
deriving DecidableEq

def lineAt (ls : List Line) (i : Nat) : Line := ls[i]?.getD []

def block? (d : Dialect) (ls : List Line) (s : Span) : Option Block :=
  match verdict d ls s.start with
  | .guarded _ _ => none
  | .unguarded reason =>
    some ⟨s.start, s.last, byteWidth (indent (lineAt ls s.start)), reason⟩

def blocks (d : Dialect) (ls : List Line) : List Block :=
  (statements d ls).filterMap (block? d ls)

/-- The terminator of a marker line: that of the line it is put to, or a line feed. -/
def lineBreak (l : Line) : Text := if terminator l = [] then ['\n'] else terminator l

def pieceBefore (d : Dialect) (ls : List Line) (bs : List Block) (i : Nat) : Text :=
  match bs.find? (·.start == i) with
  | none => []
  | some b => indent (lineAt ls b.start) ++ d.openMarker ++ lineBreak (lineAt ls b.start)

/-- What goes after line `i`. When that line has no terminator, the one of the marker line comes
before the marker. -/
def pieceAfter (d : Dialect) (ls : List Line) (bs : List Block) (i : Nat) : Text :=
  match bs.find? (·.last == i) with
  | none => []
  | some b =>
    let marker := indent (lineAt ls b.start) ++ d.closeMarker
    let brk := lineBreak (lineAt ls b.start)
    if terminator (lineAt ls i) = [] then brk ++ marker else marker ++ brk

def insertPieces (d : Dialect) (ls : List Line) (bs : List Block) : Text :=
  ls.zipIdx.flatMap fun (l, i) => pieceBefore d ls bs i ++ l ++ pieceAfter d ls bs i

structure Guarding where
  output : Text
  blocks : List Block
  /-- The first lines of the blocks whose nesting never closes. -/
  unterminated : List Nat
deriving DecidableEq

def Guarding.changed (g : Guarding) : Bool := !g.blocks.isEmpty

def Guarding.count (g : Guarding) : Nat := g.blocks.length

def guardCalls (d : Dialect) (ls : List Line) : Guarding :=
  let bs := blocks d ls
  { output := insertPieces d ls bs
    blocks := bs
    unterminated := (bs.map Block.start).filter fun i => (closingLine? d ls i).isNone }

def guardText (d : Dialect) (t : Text) : Guarding := guardCalls d (splitLines t)

/-- Guards a text, then the result, and so on. -/
def guardPasses (d : Dialect) : (passes : Nat) → Text → List Guarding
  | 0, _ => []
  | n + 1, t => guardText d t :: guardPasses d n (guardText d t).output

end CallGuard
