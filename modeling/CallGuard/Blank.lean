set_option autoImplicit false

/-!
# Blank characters

Text is a list of characters. A character is blank when it has the Unicode property White_Space;
trimming and the splitting into words go by that property.
-/
namespace CallGuard

abbrev Text := List Char

/-- The code points with the property White_Space, as inclusive ranges. -/
def blankRanges : List (Nat × Nat) :=
  [(0x9, 0xD), (0x20, 0x20), (0x85, 0x85), (0xA0, 0xA0), (0x1680, 0x1680), (0x2000, 0x200A),
   (0x2028, 0x2029), (0x202F, 0x202F), (0x205F, 0x205F), (0x3000, 0x3000)]

def inRanges (n : Nat) : List (Nat × Nat) → Bool
  | [] => false
  | (low, high) :: rest => if n < low then false else n ≤ high || inRanges n rest

def isBlank (c : Char) : Bool := inRanges c.toNat blankRanges

def trimStart (t : Text) : Text := t.dropWhile isBlank

def trimEnd (t : Text) : Text := (t.reverse.dropWhile isBlank).reverse

def trim (t : Text) : Text := trimEnd (trimStart t)

/-- The stretches between the members that `p` picks out, empty ones included. -/
def stretches {α : Type} (p : α → Bool) : List α → List (List α)
  | [] => [[]]
  | c :: cs =>
    if p c then [] :: stretches p cs
    else match stretches p cs with
      | [] => [[c]]
      | w :: ws => (c :: w) :: ws

def words (t : Text) : List Text := (stretches isBlank t).filter fun w => !w.isEmpty

end CallGuard
