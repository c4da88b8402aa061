import CallGuard.Lines
set_option autoImplicit false

/-!
# Reading YAML text

The place in a YAML text, and the scalars that can be read from a place: plain, quoted and block
scalars. Line breaks inside plain and quoted scalars are folded: a single one becomes a blank, and
of several the first is dropped.
-/
namespace CallGuard.Yaml

inductive Fault where
  | badCharacter
  | tabIndentation
  | unclosedQuote
  | documentInsideQuote
  | badEscape
  | badHeader
  | badColon
  | missingColon
  | misplacedEntry
  | misplacedKey
  | misplacedValue
  | unexpectedToken
  | severalDocuments
  | wrongType (expected : String)
  | repeatedKey (key : String)
deriving DecidableEq

def Fault.message : Fault → String
  | badCharacter => "character that is not allowed here"
  | tabIndentation => "tab character that violates the indentation"
  | unclosedQuote => "end of the text inside a quoted scalar"
  | documentInsideQuote => "document marker inside a quoted scalar"
  | badEscape => "unknown escape in a quoted scalar"
  | badHeader => "malformed head of a block scalar"
  | badColon => "unexpected ':' in a plain scalar"
  | missingColon => "could not find expected ':'"
  | misplacedEntry => "block sequence entries are not allowed here"
  | misplacedKey => "mapping keys are not allowed here"
  | misplacedValue => "mapping values are not allowed here"
  | unexpectedToken => "unexpected token"
  | severalDocuments => "more than one document"
  | wrongType expected => s!"invalid type, expected {expected}"
  | repeatedKey key => s!"duplicate field {key}"

def isSpace (c : Char) : Bool := c == ' ' || c == '\t'

def isBreak (c : Char) : Bool :=
  c == '\n' || c == '\r' || c == '\u0085' || c == '\u2028' || c == '\u2029'

def endsWord (t : Text) : Bool := t.head?.all fun c => isSpace c || isBreak c

def breakText (c : Char) : Text := if c == '\u2028' || c == '\u2029' then [c] else ['\n']

def isPrintable (c : Char) : Bool :=
  let n := c.toNat
  n == 0x9 || n == 0xA || n == 0xD || (0x20 ≤ n && n ≤ 0x7E) || n == 0x85 ||
    (0xA0 ≤ n && n ≤ 0xD7FF) || (0xE000 ≤ n && n ≤ 0xFFFD) || 0x10000 ≤ n

structure Cursor where
  rest : Text
  /-- The bytes before the cursor. -/
  index : Nat := 0
  line : Nat := 0
  /-- The characters before the cursor on its line. -/
  column : Nat := 0

namespace Cursor

def skip (n : Nat) (c : Cursor) : Cursor :=
  { c with
    rest := c.rest.drop n
    index := c.index + byteWidth (c.rest.take n)
    column := c.column + n }

def nextLine (c : Cursor) : Cursor :=
  let c := c.skip (if ['\r', '\n'].isPrefixOf c.rest then 2 else 1)
  { c with line := c.line + 1, column := 0 }

/-- Three dashes or three dots at the start of a line, and nothing close behind. -/
def atMarker (marker : Char) (c : Cursor) : Bool :=
  c.column == 0 && [marker, marker, marker].isPrefixOf c.rest && endsWord (c.rest.drop 3)

def atDocument (c : Cursor) : Bool := c.atMarker '-' || c.atMarker '.'

def skipLine (c : Cursor) : Cursor := c.skip (c.rest.takeWhile fun x => !isBreak x).length

end Cursor

/-- Blanks and line breaks between two parts of a scalar. -/
structure Gap where
  blanks : Text := []
  first : Option Text := none
  later : Text := []

namespace Gap

def fold (g : Gap) : Text :=
  match g.first with
  | none => g.blanks
  | some b => if b != ['\n'] then b ++ g.later else if g.later.isEmpty then [' '] else g.later

def addBlank (c : Char) (g : Gap) : Gap :=
  if g.first.isSome then g else { g with blanks := g.blanks ++ [c] }

def addBreak (c : Char) (g : Gap) : Gap :=
  if g.first.isSome then { g with later := g.later ++ breakText c }
  else { g with blanks := [], first := some (breakText c) }

/-- After a line break no tab may stand left of `margin`. -/
def read (margin : Nat) : (turns : Nat) → Gap → Cursor → Except Fault (Gap × Cursor)
  | 0, g, at_ => .ok (g, at_)
  | turns + 1, g, at_ =>
    match at_.rest with
    | [] => .ok (g, at_)
    | c :: _ =>
      if isSpace c then
        if c == '\t' && g.first.isSome && at_.column < margin then .error .tabIndentation
        else read margin turns (g.addBlank c) (at_.skip 1)
      else if isBreak c then read margin turns (g.addBreak c) at_.nextLine
      else .ok (g, at_)

end Gap

/-- A word of a plain scalar. Between flow brackets, brackets and commas end it. -/
def plainWord (flow : Bool) : Text → Except Fault Text
  | [] => .ok []
  | c :: cs =>
    if isSpace c || isBreak c then .ok []
    else if flow && c == ':' && cs.head?.any ([',', '?', '[', ']', '\x7b', '\x7d'].contains ·) then
      .error .badColon
    else if c == ':' && endsWord cs then .ok []
    else if flow && [',', '[', ']', '\x7b', '\x7d'].contains c then .ok []
    else (plainWord flow cs).map (c :: ·)

structure PlainScalar where
  text : Text
  /-- Whether a line break came after the last word. -/
  brokeLine : Bool
  cursor : Cursor

def readPlain (margin : Nat) (flow : Bool) :
    (turns : Nat) → Text → Gap → Cursor → Except Fault PlainScalar
  | 0, t, g, at_ => .ok ⟨t, g.first.isSome, at_⟩
  | turns + 1, t, g, at_ => do
    if at_.atDocument || at_.rest.head? == some '#' then return ⟨t, g.first.isSome, at_⟩
    let word ← plainWord flow at_.rest
    if word.isEmpty then return ⟨t, g.first.isSome, at_⟩
    let t := t ++ g.fold ++ word
    let at_ := at_.skip word.length
    let (g, next) ← Gap.read margin at_.rest.length {} at_
    if g.blanks.isEmpty && g.first.isNone then return ⟨t, false, at_⟩
    if !flow && next.column < margin then return ⟨t, g.first.isSome, next⟩
    readPlain margin flow turns t g next

def hexValue (c : Char) : Option Nat :=
  if c.isDigit then some (c.toNat - 48)
  else if 'a' ≤ c && c ≤ 'f' then some (c.toNat - 87)
  else if 'A' ≤ c && c ≤ 'F' then some (c.toNat - 55)
  else none

def hexNumber (t : Text) : Option Nat :=
  t.foldlM (fun n c => (hexValue c).map (16 * n + ·)) 0

def namedEscape : Char → Option Char
  | '0' => some '\x00'
  | 'a' => some '\x07'
  | 'b' => some '\x08'
  | 't' => some '\t'
  | '\t' => some '\t'
  | 'n' => some '\n'
  | 'v' => some '\x0b'
  | 'f' => some '\x0c'
  | 'r' => some '\r'
  | 'e' => some '\x1b'
  | ' ' => some ' '
  | '"' => some '"'
  | '/' => some '/'
  | '\\' => some '\\'
  | 'N' => some '\u0085'
  | '_' => some '\u00a0'
  | 'L' => some '\u2028'
  | 'P' => some '\u2029'
  | _ => none

/-- What an escape stands for, and its length without the backslash. -/
def escapeAt (t : Text) : Option (Char × Nat) :=
  match t with
  | [] => none
  | c :: cs =>
    match namedEscape c with
    | some d => some (d, 1)
    | none =>
      let digits := if c == 'x' then 2 else if c == 'u' then 4 else if c == 'U' then 8 else 0
      if digits = 0 || cs.length < digits then none
      else match hexNumber (cs.take digits) with
        | some n => if n.isValidChar then some (Char.ofNat n, digits + 1) else none
        | none => none

def readQuoted (single : Bool) : (turns : Nat) → Text → Cursor → Except Fault (Text × Cursor)
  | 0, _, _ => .error .unclosedQuote
  | turns + 1, t, at_ => do
    if at_.atDocument then throw .documentInsideQuote
    match at_.rest with
    | [] => throw .unclosedQuote
    | c :: cs =>
      if isSpace c || isBreak c then
        let (g, next) ← Gap.read 0 at_.rest.length {} at_
        readQuoted single turns (t ++ g.fold) next
      else if single then
        if c != '\'' then readQuoted single turns (t ++ [c]) (at_.skip 1)
        else if cs.head? == some '\'' then readQuoted single turns (t ++ [c]) (at_.skip 2)
        else return (t, at_.skip 1)
      else if c == '"' then return (t, at_.skip 1)
      else if c != '\\' then readQuoted single turns (t ++ [c]) (at_.skip 1)
      else if cs.head?.any isBreak then
        let (g, next) ← Gap.read 0 at_.rest.length { first := some [] } (at_.skip 1).nextLine
        readQuoted single turns (t ++ g.fold) next
      else match escapeAt cs with
        | some (d, n) => readQuoted single turns (t ++ [d]) (at_.skip (n + 1))
        | none => throw .badEscape

inductive Chomp where
  | strip
  | clip
  | keep
deriving DecidableEq

def chompOf : Char → Option Chomp
  | '+' => some .keep
  | '-' => some .strip
  | _ => none

def blockDigit (t : Text) : Except Fault (Option Nat) :=
  match t.head? with
  | some '0' => .error .badHeader
  | some c => .ok (if c.isDigit then some (c.toNat - 48) else none)
  | none => .ok none

/-- Reads the indentation and chomping indicators, in either order. -/
def readHeader (t : Text) : Except Fault (Option Nat × Chomp × Text) := do
  match t.head?.bind chompOf with
  | some chomp =>
    match ← blockDigit (t.drop 1) with
    | some n => return (some n, chomp, t.drop 2)
    | none => return (none, chomp, t.drop 1)
  | none =>
    match ← blockDigit t with
    | none => return (none, .clip, t)
    | some n =>
      match (t.drop 1).head?.bind chompOf with
      | some chomp => return (some n, chomp, t.drop 2)
      | none => return (some n, .clip, t.drop 1)

/-- Passes over empty lines and the indentation of the next line, which may be unknown. Answers
with the line breaks and the largest column reached. -/
def readEmptyLines (indent : Option Nat) :
    (turns widest : Nat) → Text → Cursor → Except Fault (Nat × Text × Cursor)
  | 0, widest, t, at_ => .ok (widest, t, at_)
  | turns + 1, widest, t, at_ =>
    let blanks := (at_.rest.takeWhile (· == ' ')).length
    let at_ := at_.skip (match indent with
      | some n => min blanks (n - at_.column)
      | none => blanks)
    let widest := max widest at_.column
    match at_.rest with
    | [] => .ok (widest, t, at_)
    | c :: _ =>
      if c == '\t' && indent.all (at_.column < ·) then .error .tabIndentation
      else if isBreak c then readEmptyLines indent turns widest (t ++ breakText c) at_.nextLine
      else .ok (widest, t, at_)

structure BlockText where
  text : Text := []
  first : Text := []
  /-- Those of the empty lines after it. -/
  later : Text := []
  /-- Whether the last line begins with a blank. -/
  blank : Bool := false
  cursor : Cursor

def readBlockLines (folded : Bool) (indent : Nat) :
    (turns : Nat) → BlockText → Except Fault BlockText
  | 0, b => .ok b
  | turns + 1, b =>
    let at_ := b.cursor
    match at_.rest with
    | [] => .ok b
    | c :: _ =>
      if at_.column != indent then .ok b
      else do
        let blank := isSpace c
        let between :=
          if folded && b.first == ['\n'] && !b.blank && !blank then
            if b.later.isEmpty then [' '] else b.later
          else b.first ++ b.later
        let line := at_.rest.takeWhile fun x => !isBreak x
        let at_ := at_.skip line.length
        let (first, at_) := match at_.rest with
          | [] => ([], at_)
          | x :: _ => (breakText x, at_.nextLine)
        let (_, later, at_) ← readEmptyLines (some indent) (at_.rest.length + 1) 0 [] at_
        readBlockLines folded indent turns
          { text := b.text ++ between ++ line, first, later, blank, cursor := at_ }

/-- Reads a block scalar from behind its sign. `margin` is the least indentation it can have. -/
def readBlock (folded : Bool) (margin : Nat) (at_ : Cursor) : Except Fault (Text × Cursor) := do
  let (digit, chomp, rest) ← readHeader at_.rest
  let at_ := at_.skip (at_.rest.length - rest.length)
  let at_ := at_.skip (at_.rest.takeWhile isSpace).length
  let at_ := if at_.rest.head? == some '#' then at_.skipLine else at_
  let at_ ← match at_.rest with
    | [] => pure at_
    | c :: _ => if isBreak c then pure at_.nextLine else throw .badHeader
  let given := digit.map fun n => if margin = 0 then n else margin - 1 + n
  let (widest, breaks, at_) ← readEmptyLines given (at_.rest.length + 1) 0 [] at_
  let indent := given.getD (max (max widest margin) 1)
  let b ← readBlockLines folded indent (at_.rest.length + 1) { later := breaks, cursor := at_ }
  let ending := match chomp with
    | .strip => []
    | .clip => b.first
    | .keep => b.first ++ b.later
  return (b.text ++ ending, b.cursor)

end CallGuard.Yaml
