import CallGuard.Letter
set_option autoImplicit false

/-!
# Dialects

What the tool has to know of a host language: the two marker lines of a guard, the calls to guard,
the words that begin a declaration, and the characters that delimit strings and nesting.
`Dialect.swift` is the dialect in force when nothing else is said. `Dialect.fault?` names the first
thing that makes a dialect unusable.
-/
namespace CallGuard

structure Dialect where
  openMarker : Text
  closeMarker : Text
  callTokens : List Text
  keywords : List Text
  modifiers : List Text
  lineComment : Text
  quote : Char
  escape : Char
  openDelim : Char
  closeDelim : Char
  /-- How many lines that are no markers a search for a marker may step over. -/
  window : Nat
deriving DecidableEq

namespace Dialect

def swift : Dialect where
  openMarker := "#if DEBUG".toList
  closeMarker := "#endif".toList
  callTokens := ["print".toList]
  keywords :=
    ["func", "var", "let", "class", "struct", "enum", "protocol", "extension", "init",
      "actor"].map String.toList
  modifiers :=
    ["public", "private", "fileprivate", "internal", "open", "static", "final", "override",
      "mutating", "nonmutating", "lazy", "weak", "unowned", "convenience", "required",
      "nonisolated"].map String.toList
  lineComment := "//".toList
  quote := '"'
  escape := '\\'
  openDelim := '('
  closeDelim := ')'
  window := 10

end Dialect

/-- After its leading blanks the line holds the trimmed marker, and then a blank or nothing. -/
def isDirective (marker : Text) (l : Text) : Bool :=
  let m := trim marker
  let t := trimStart l
  m.isPrefixOf t && (t.drop m.length).head?.all isBlank

namespace Dialect

def opensGuard (d : Dialect) (l : Text) : Bool := isDirective d.openMarker l

def closesGuard (d : Dialect) (l : Text) : Bool := isDirective d.closeMarker l

/-- Attributes and modifiers are passed over; the first other word has to be a keyword. A modifier
may carry an argument in parentheses. -/
def declaredBy (d : Dialect) : List Text → Bool
  | [] => false
  | w :: ws =>
    if w.head? = some '@' then d.declaredBy ws
    else if d.modifiers.contains (w.takeWhile (· != '(')) then d.declaredBy ws
    else d.keywords.contains w

def isDeclaration (d : Dialect) (l : Text) : Bool := d.declaredBy (words l)

end Dialect

inductive DialectFault where
  | emptyMarker
  | sameMarkers
  | noCallToken
  | badCallToken (token : Text)
  | emptyComment
  | sharedCharacter (c : Char)
  | windowOutOfRange (window : Nat)
deriving DecidableEq

def maxWindow : Nat := 100

def firstRepeated : List Char → Option Char
  | [] => none
  | c :: cs => if cs.contains c then some c else firstRepeated cs

def Dialect.fault? (d : Dialect) : Option DialectFault :=
  if (trim d.openMarker).isEmpty || (trim d.closeMarker).isEmpty then some .emptyMarker
  else if trim d.openMarker = trim d.closeMarker then some .sameMarkers
  else if d.callTokens.isEmpty then some .noCallToken
  else match d.callTokens.find? (!isIdentifier ·) with
    | some token => some (.badCallToken token)
    | none =>
      if d.lineComment.isEmpty then some .emptyComment
      else match firstRepeated [d.quote, d.escape, d.openDelim, d.closeDelim] with
        | some c => some (.sharedCharacter c)
        | none =>
          if d.window = 0 ∨ maxWindow < d.window then some (.windowOutOfRange d.window) else none

def DialectFault.message : DialectFault → String
  | .emptyMarker => "guard markers must not be empty"
  | .sameMarkers => "open and close markers must differ"
  | .noCallToken => "at least one call token is required"
  | .badCallToken token => s!"call token '{String.ofList token}' is not an identifier"
  | .emptyComment => "line comment prefix must not be empty"
  | .sharedCharacter c => s!"character '{c}' is used for more than one role"
  | .windowOutOfRange n => s!"window must be between 1 and {maxWindow}, got {n}"

end CallGuard
