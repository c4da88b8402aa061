import CallGuard.Dialect
import CallGuard.Failure
import CallGuard.Faults
import CallGuard.Yaml.Node
set_option autoImplicit false

/-!
# Dialect files

A dialect file is a YAML mapping from the names of fields to their values. Fields that are left out
keep their value from `Dialect.swift`, and names that are no field are passed over. A plain scalar
is a string as it stands; the window is a plain scalar that reads as a number.
-/
namespace CallGuard.DialectFile

open Yaml (Fault Node)

def string : Node → Except Fault Text
  | .scalar _ t => .ok t
  | _ => .error (.wrongType "a string")

def character : Node → Except Fault Char
  | .scalar _ [c] => .ok c
  | _ => .error (.wrongType "a character")

/-- A list that is left out is empty. -/
def strings : Node → Except Fault (List Text)
  | .list items => items.mapM string
  | .scalar true [] => .ok []
  | _ => .error (.wrongType "a sequence")

def digitsIn (base : Nat) (t : Text) : Option Nat :=
  if t.isEmpty then none
  else t.foldlM (fun n c => do
    let d ← Yaml.hexValue c
    if d < base then some (base * n + d) else none) 0

/-- After an optional plus sign, decimal digits without a needless zero in front, or `0x`, `0o` or
`0b` and digits of that base. -/
def number? (t : Text) : Option Nat :=
  let unsigned := if t.head? == some '+' then t.drop 1 else t
  let based := match unsigned with
    | '0' :: 'x' :: rest => digitsIn 16 rest
    | '0' :: 'o' :: rest => digitsIn 8 rest
    | '0' :: 'b' :: rest => digitsIn 2 rest
    | _ => none
  match based with
  | some n => some n
  | none =>
    if 1 < unsigned.length && unsigned.head? == some '0' then none else digitsIn 10 unsigned

def maxNumber : Nat := 18446744073709551615

def natural : Node → Except Fault Nat
  | .scalar true t =>
    match number? t with
    | some n => if n ≤ maxNumber then .ok n else .error (.wrongType "a number")
    | none => .error (.wrongType "a number")
  | _ => .error (.wrongType "a number")

def setField (name : String) (v : Node) (d : Dialect) : Option (Except Fault Dialect) :=
  match name with
  | "open_marker" => some do return { d with openMarker := ← string v }
  | "close_marker" => some do return { d with closeMarker := ← string v }
  | "call_tokens" => some do return { d with callTokens := ← strings v }
  | "declaration_keywords" => some do return { d with keywords := ← strings v }
  | "declaration_modifiers" => some do return { d with modifiers := ← strings v }
  | "line_comment" => some do return { d with lineComment := ← string v }
  | "quote" => some do return { d with quote := ← character v }
  | "escape" => some do return { d with escape := ← character v }
  | "open_delim" => some do return { d with openDelim := ← character v }
  | "close_delim" => some do return { d with closeDelim := ← character v }
  | "window" => some do return { d with window := ← natural v }
  | _ => none

/-- Sets field after field. `seen` holds the names of the fields set before. -/
def setFields (seen : List String) (d : Dialect) : List (Node × Node) → Except Fault Dialect
  | [] => .ok d
  | (k, v) :: entries => do
    let name := String.ofList (← string k)
    match setField name v d with
    | none => setFields seen d entries
    | some result =>
      if seen.contains name then throw (.repeatedKey name)
      setFields (name :: seen) (← result) entries

def ofNode : Option Node → Except Fault Dialect
  | none | some (.scalar true []) => .ok Dialect.swift
  | some (.map entries) => setFields [] Dialect.swift entries
  | some _ => .error (.wrongType "struct Dialect")

def ofText (t : Text) : Except Fault Dialect := Node.ofText t >>= ofNode

/-- The dialect a file describes, or `Dialect.swift` when no file is given. -/
def load (faults : Faults) (top : Folder) (p : Option Path) : Except Failure Dialect := do
  let d ← match p with
    | none => pure Dialect.swift
    | some p =>
      match faults.readText top p with
      | .error why => throw (.configuration s!"cannot read {p.display}: {why.message}")
      | .ok t =>
        match ofText t with
        | .error fault => throw (.configuration s!"{p.display}: {fault.message}")
        | .ok d => pure d
  match d.fault? with
  | none => return d
  | some fault => throw (.library (.invalidDialect fault.message))

end CallGuard.DialectFile
