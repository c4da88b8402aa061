set_option autoImplicit false

/-!
# Indented JSON

A value is printed at a depth; each depth indents by two blanks. A list or an object takes a line
for each member, an empty one none.
-/
namespace CallGuard

/-- The text of a value that stands at a given depth. -/
abbrev Json := Nat → String

namespace Json

def margin (depth : Nat) : String := String.ofList (List.replicate (2 * depth) ' ')

/-- Only quotes, backslashes and the characters below the blank are escaped. -/
def escape (c : Char) : List Char :=
  match c with
  | '"' => ['\\', '"']
  | '\\' => ['\\', '\\']
  | '\n' => ['\\', 'n']
  | '\r' => ['\\', 'r']
  | '\t' => ['\\', 't']
  | '\x08' => ['\\', 'b']
  | '\x0c' => ['\\', 'f']
  | c =>
    if c.toNat < 0x20 then
      ['\\', 'u', '0', '0', Nat.digitChar (c.toNat / 16), Nat.digitChar (c.toNat % 16)]
    else [c]

def quote (s : String) : String := String.ofList ('"' :: s.toList.flatMap escape ++ ['"'])

def str (s : String) : Json := fun _ => quote s

def nat (n : Nat) : Json := fun _ => toString n

def bool (b : Bool) : Json := fun _ => if b then "true" else "false"

def block (opening closing : String) (members : List Json) : Json := fun depth =>
  match members with
  | [] => opening ++ closing
  | _ =>
    let lines := members.map fun m => margin (depth + 1) ++ m (depth + 1)
    opening ++ "\n" ++ ",\n".intercalate lines ++ "\n" ++ margin depth ++ closing

def list (members : List Json) : Json := block "[" "]" members

def object (fields : List (String × Json)) : Json :=
  block "\x7b" "\x7d" (fields.map fun (key, value) => fun depth => quote key ++ ": " ++ value depth)

def render (j : Json) : String := j 0

end Json

end CallGuard
