import CallGuard.Yaml.Cursor
set_option autoImplicit false

/-!
# YAML tokens

Indentation becomes tokens too: a collection in block style begins where its column is first
reached and ends where the text falls back to the left of it. That a scalar or a collection is a
key shows only at the colon after it; the key token is then put in before it, so each place where a
key might begin is remembered. A key has to stand on one line.
-/
namespace CallGuard.Yaml

inductive Token where
  | documentStart
  | documentEnd
  | blockSequence
  | blockMapping
  | blockEnd
  | flowSequence
  | flowSequenceEnd
  | flowMapping
  | flowMappingEnd
  | entry
  | comma
  | key
  | value
  | scalar (plain : Bool) (text : Text)
deriving DecidableEq

/-- A token that is a key if a colon follows. -/
structure Candidate where
  position : Nat
  /-- The token has to be a key, as nothing else can stand in its column. -/
  required : Bool
  index : Nat
  line : Nat
  column : Nat

structure Reader where
  cursor : Cursor
  tokens : List Token := []
  /-- The columns of the block collections around the cursor, the innermost first. -/
  indents : List Nat := []
  /-- The candidates, one for each flow collection around the cursor and one for the block, the
  innermost first. -/
  candidates : List (Option Candidate) := [none]
  keyAllowed : Bool := true

namespace Reader

def inFlow (s : Reader) : Bool := 1 < s.candidates.length

def margin (s : Reader) : Nat :=
  match s.indents with
  | [] => 0
  | i :: _ => i + 1

def push (t : Token) (s : Reader) : Reader := { s with tokens := s.tokens ++ [t] }

def skip (n : Nat) (s : Reader) : Reader := { s with cursor := s.cursor.skip n }

def allowKey (b : Bool) (s : Reader) : Reader := { s with keyAllowed := b }

def indentTo (column position : Nat) (t : Token) (s : Reader) : Reader :=
  if s.inFlow || column < s.margin then s
  else { s with indents := column :: s.indents, tokens := s.tokens.insertIdx position t }

def unindent (p : Nat → Bool) (s : Reader) : Reader :=
  if s.inFlow then s
  else
    { s with
      tokens := s.tokens ++ (s.indents.takeWhile p).map fun _ => .blockEnd
      indents := s.indents.dropWhile p }

def dropCandidate (s : Reader) : Except Fault Reader :=
  match s.candidates with
  | some k :: rest =>
    if k.required then .error .missingColon else .ok { s with candidates := none :: rest }
  | _ => .ok s

def markCandidate (s : Reader) : Except Fault Reader :=
  if !s.keyAllowed then .ok s
  else do
    let at_ := s.cursor
    let k : Candidate :=
      { position := s.tokens.length
        required := !s.inFlow && s.indents.head? == some at_.column
        index := at_.index
        line := at_.line
        column := at_.column }
    let s ← s.dropCandidate
    return { s with candidates := some k :: s.candidates.drop 1 }

def maxKeyLength : Nat := 1024

/-- Gives up the candidates that began on another line or too far back. -/
def expireCandidates (s : Reader) : Except Fault Reader := do
  let candidates ← s.candidates.mapM fun
    | none => .ok none
    | some k =>
      if k.line < s.cursor.line || k.index + maxKeyLength < s.cursor.index then
        if k.required then .error .missingColon else .ok none
      else .ok (some k)
  return { s with candidates }

/-- Passes over blanks, comments and line breaks. Where a block key may begin a tab is no blank; at
the start of a line a byte order mark is one. -/
def skipSpace : (turns : Nat) → Reader → Reader
  | 0, s => s
  | turns + 1, s =>
    match s.cursor.rest with
    | [] => s
    | c :: _ =>
      if c == ' ' || (c == '\t' && (s.inFlow || !s.keyAllowed)) ||
          (c == '\ufeff' && s.cursor.column == 0) then skipSpace turns (s.skip 1)
      else if c == '#' then skipSpace turns { s with cursor := s.cursor.skipLine }
      else if isBreak c then
        skipSpace turns
          { s with cursor := s.cursor.nextLine, keyAllowed := s.keyAllowed || !s.inFlow }
      else s

def document (t : Token) (s : Reader) : Except Fault Reader := do
  let s ← (s.unindent fun _ => true).dropCandidate
  return ((s.allowKey false).push t).skip 3

def openFlow (t : Token) (s : Reader) : Except Fault Reader := do
  let s ← s.markCandidate
  return (({ s with candidates := none :: s.candidates }.allowKey true).push t).skip 1

def closeFlow (t : Token) (s : Reader) : Except Fault Reader := do
  let s ← s.dropCandidate
  let s := if s.inFlow then { s with candidates := s.candidates.drop 1 } else s
  return ((s.allowKey false).push t).skip 1

def comma (s : Reader) : Except Fault Reader := do
  let s ← s.dropCandidate
  return ((s.allowKey true).push .comma).skip 1

def indicator (fault : Fault) (collection t : Token) (s : Reader) : Except Fault Reader := do
  if !s.inFlow && !s.keyAllowed then throw fault
  let s ← (s.indentTo s.cursor.column s.tokens.length collection).dropCandidate
  return (s.push t).skip 1

def entry (s : Reader) : Except Fault Reader :=
  (s.indicator .misplacedEntry .blockSequence .entry).map (allowKey true)

def key (s : Reader) : Except Fault Reader :=
  (s.indicator .misplacedKey .blockMapping .key).map (allowKey !s.inFlow)

def value (s : Reader) : Except Fault Reader :=
  match s.candidates with
  | some k :: rest =>
    let s := { s with tokens := s.tokens.insertIdx k.position .key, candidates := none :: rest }
    let s := s.indentTo k.column k.position .blockMapping
    .ok (((s.allowKey false).push .value).skip 1)
  | _ => (s.indicator .misplacedValue .blockMapping .value).map (allowKey !s.inFlow)

def blockScalar (folded : Bool) (s : Reader) : Except Fault Reader := do
  let s ← s.dropCandidate
  let (t, cursor) ← readBlock folded s.margin (s.cursor.skip 1)
  return ({ s with cursor, keyAllowed := true }.push (.scalar false t))

def quotedScalar (single : Bool) (s : Reader) : Except Fault Reader := do
  let s ← s.markCandidate
  let (t, cursor) ← readQuoted single s.cursor.rest.length [] (s.cursor.skip 1)
  return ({ s with cursor, keyAllowed := false }.push (.scalar false t))

def plainScalar (s : Reader) : Except Fault Reader := do
  let s ← s.markCandidate
  let r ← readPlain s.margin s.inFlow (s.cursor.rest.length + 1) [] {} s.cursor
  return ({ s with cursor := r.cursor, keyAllowed := r.brokeLine }.push (.scalar true r.text))

/-- The signs a plain scalar cannot begin with. -/
def reserved : List Char :=
  ['-', '?', ':', ',', '[', ']', '\x7b', '\x7d', '#', '&', '*', '!', '|', '>', '\'', '"', '%', '@',
    '\x60']

def next (c : Char) (cs : Text) (s : Reader) : Except Fault Reader :=
  let alone := endsWord cs
  let bracket := s.inFlow || alone
  if s.cursor.column == 0 && c == '%' then .error .badCharacter
  else if s.cursor.atMarker '-' then s.document .documentStart
  else if s.cursor.atMarker '.' then s.document .documentEnd
  else match c with
    | '[' => s.openFlow .flowSequence
    | '\x7b' => s.openFlow .flowMapping
    | ']' => s.closeFlow .flowSequenceEnd
    | '\x7d' => s.closeFlow .flowMappingEnd
    | ',' => s.comma
    | '\'' => s.quotedScalar true
    | '"' => s.quotedScalar false
    | _ =>
      if c == '-' && alone then s.entry
      else if c == '?' && bracket then s.key
      else if c == ':' && bracket then s.value
      else if c == '|' && !s.inFlow then s.blockScalar false
      else if c == '>' && !s.inFlow then s.blockScalar true
      else if !(isSpace c || reserved.contains c) || (c == '-' && !cs.head?.any isSpace) ||
          (!s.inFlow && (c == '?' || c == ':') && !alone) then s.plainScalar
      else .error .badCharacter

def scan : (turns : Nat) → Reader → Except Fault (List Token)
  | 0, _ => .error .unexpectedToken
  | turns + 1, s => do
    let s ← (s.skipSpace (s.cursor.rest.length + 1)).expireCandidates
    let s := s.unindent (s.cursor.column < ·)
    match s.cursor.rest with
    | [] => return (← (s.unindent fun _ => true).dropCandidate).tokens
    | c :: cs => scan turns (← s.next c cs)

end Reader

def tokens (t : Text) : Except Fault (List Token) :=
  if t.all isPrintable then Reader.scan (t.length + 1) { cursor := { rest := t } }
  else .error .badCharacter

end CallGuard.Yaml
