import CallGuard.Bytes
set_option autoImplicit false

/-!
# Paths

Names and paths are bytes. A path says in `steps` what it asks for. Empty components and single dots
stay where they are, so a path that ends in a slash asks for a directory.
-/
namespace CallGuard

abbrev Name := Bytes

abbrev Path := Bytes

inductive Step where
  | stay
  | up
  | down (name : Name)
deriving DecidableEq

def Step.ofComponent (b : Bytes) : Step :=
  if b = [] ∨ b = "." then .stay
  else if b = ".." then .up
  else .down b

def Path.steps (p : Path) : List Step := (stretches (· == Bytes.slash) p).map Step.ofComponent

def Path.isAbsolute (p : Path) : Bool := p.head? == some Bytes.slash

/-- A slash goes between, unless the first part is empty or ends in one. -/
def Path.join (p : Path) (n : Name) : Path :=
  if p = [] ∨ p.getLast? = some Bytes.slash then p ++ n else p ++ Bytes.slash :: n

def Path.below (root : Path) (chain : List Name) : Path := chain.foldl Path.join root

def Path.ofChain (chain : List Name) : Path := [Bytes.slash].intercalate chain

/-- Dictionary order, of which the empty list is the least element. -/
def dictionaryLe {α : Type} [DecidableEq α] (lt : α → α → Bool) : List α → List α → Bool
  | [], _ => true
  | _ :: _, [] => false
  | a :: as, b :: bs => if a = b then dictionaryLe lt as bs else lt a b

def Name.le (a b : Name) : Bool := dictionaryLe (fun x y => decide (x < y)) a b

def Name.lt (a b : Name) : Bool := a != b && a.le b

def chainLe (a b : List Name) : Bool := dictionaryLe Name.lt a b

/-- What follows the last dot, unless that dot comes first. -/
def Name.extension? (n : Name) : Option Bytes :=
  let backwards := n.reverse
  let ext := backwards.takeWhile (· != Bytes.dot)
  if ext.length + 1 < backwards.length then some ext.reverse else none

/-- A name that is no text counts as empty here. -/
def Name.isHidden (n : Name) : Bool := (n.text?.getD "").toList.head? == some '.'

end CallGuard
