import CallGuard.Path
set_option autoImplicit false

/-!
# Glob patterns

A pattern accepts whole texts. `?` stands for one character, `*` for any run of characters, a class
in brackets for one of its characters or, after `!`, for any other. Two stars that fill a component
stand, with the slash after them, for nothing, for a run that ends in a slash, or for all the rest.
-/
namespace CallGuard

inductive ClassItem where
  | char (c : Char)
  | range (low high : Char)
deriving DecidableEq

inductive GlobPiece where
  | char (c : Char)
  | any
  | run
  | components
  | within (items : List ClassItem)
  | except (items : List ClassItem)
deriving DecidableEq

abbrev Glob := List GlobPiece

/-- What is wrong with a pattern, and at which character. -/
inductive GlobFault where
  | stars (position : Nat)
  | component (position : Nat)
  | range (position : Nat)
deriving DecidableEq

def GlobFault.message (f : GlobFault) : String :=
  let (position, what) := match f with
    | .stars n => (n, "wildcards are either regular `*` or recursive `**`")
    | .component n => (n, "recursive wildcards must form a single path component")
    | .range n => (n, "invalid range pattern")
  s!"Pattern syntax error near position {position}: {what}"

namespace ClassItem

def accepts (c : Char) : ClassItem → Bool
  | char d => c == d
  | range low high => low ≤ c && c ≤ high

def ofText : Text → List ClassItem
  | low :: '-' :: high :: rest => range low high :: ofText rest
  | c :: rest => char c :: ofText rest
  | [] => []

end ClassItem

namespace Glob

/-- The text before the first closing bracket that is not the first character, and the text after
it. -/
def splitClass : Text → Option (Text × Text)
  | [] => none
  | c :: cs =>
    let inside := cs.takeWhile (· != ']')
    if inside.length < cs.length then some (c :: inside, cs.drop (inside.length + 1)) else none

/-- Reads the pattern from position `i` on, given the character before. Each turn reads at least
one character, so `turns` need not be larger than the length. -/
def read (turns i : Nat) (before : Option Char) (t : Text) : Except GlobFault Glob :=
  match turns, t with
  | _, [] => .ok []
  | 0, _ => .ok []
  | turns + 1, c :: cs =>
    if c = '?' then return .any :: (← read turns (i + 1) c cs)
    else if c = '*' then
      match cs with
      | '*' :: '*' :: _ => .error (.stars (i + 2))
      | '*' :: rest =>
        if before.any (· != '/') then .error (.component (i - 1))
        else match rest with
          | [] => .ok [.components]
          | '/' :: rest => return .components :: (← read turns (i + 3) '/' rest)
          | _ :: _ => .error (.component (i + 2))
      | _ => return .run :: (← read turns (i + 1) c cs)
    else if c = '[' then
      let negated := cs.head? == some '!'
      match splitClass (if negated then cs.drop 1 else cs) with
      | none => .error (.range i)
      | some (inside, rest) =>
        let items := ClassItem.ofText inside
        return (if negated then .except items else .within items) ::
          (← read turns (i + inside.length + if negated then 3 else 2) ']' rest)
    else return .char c :: (← read turns (i + 1) c cs)

def ofPattern (pattern : String) : Except GlobFault Glob :=
  read pattern.length 0 none pattern.toList

def suffixes : Text → List Text
  | [] => [[]]
  | c :: cs => (c :: cs) :: suffixes cs

def afterSlashes : Text → List Text
  | [] => []
  | c :: cs => if c = '/' then cs :: afterSlashes cs else afterSlashes cs

def accepts : Glob → Text → Bool
  | [], t => t.isEmpty
  | .run :: ps, t => (suffixes t).any (accepts ps)
  | .components :: ps, t => accepts ps t || (afterSlashes t).any (accepts ps) || accepts ps []
  | _ :: _, [] => false
  | .char d :: ps, c :: cs => c == d && accepts ps cs
  | .any :: ps, _ :: cs => accepts ps cs
  | .within items :: ps, c :: cs => items.any (·.accepts c) && accepts ps cs
  | .except items :: ps, c :: cs => !items.any (·.accepts c) && accepts ps cs

/-- Whether it accepts a path. None is accepted that is no text. -/
def matchesPath (g : Glob) (p : Path) : Bool := p.text?.any fun s => g.accepts s.toList

end Glob

end CallGuard
