import CallGuard.Blank
set_option autoImplicit false

/-!
# Bytes

What the file system calls a name need not be a text. Bytes that are no text are shown with a sign
of replacement for each part that spells nothing.
-/
namespace CallGuard

abbrev Bytes := List UInt8

def utf8 (s : String) : Bytes := s.toUTF8.data.toList

instance : Coe String Bytes := ⟨utf8⟩

namespace Bytes

def slash : UInt8 := 0x2F

def dot : UInt8 := 0x2E

def text? (b : Bytes) : Option String := String.fromUTF8? ⟨b.toArray⟩

/-- A character of which some bytes have been read: what they are worth, how many are to come, and
the bounds of the next one. -/
structure Pending where
  value : Nat
  missing : Nat
  low : UInt8
  high : UInt8

/-- What a byte begins that is no character by itself. Only the second byte has other bounds than
those that follow. -/
def pending? (b : UInt8) : Option Pending :=
  if 0xC2 ≤ b ∧ b ≤ 0xDF then some ⟨b.toNat - 0xC0, 1, 0x80, 0xBF⟩
  else if b = 0xE0 then some ⟨0, 2, 0xA0, 0xBF⟩
  else if b = 0xED then some ⟨0xD, 2, 0x80, 0x9F⟩
  else if 0xE1 ≤ b ∧ b ≤ 0xEF then some ⟨b.toNat - 0xE0, 2, 0x80, 0xBF⟩
  else if b = 0xF0 then some ⟨0, 3, 0x90, 0xBF⟩
  else if b = 0xF4 then some ⟨4, 3, 0x80, 0x8F⟩
  else if 0xF1 ≤ b ∧ b ≤ 0xF3 then some ⟨b.toNat - 0xF0, 3, 0x80, 0xBF⟩
  else none

def replacement : Char := '\uFFFD'

def readFirst (b : UInt8) : Text × Option Pending :=
  if b < 0x80 then ([Char.ofNat b.toNat], none)
  else match pending? b with
    | some p => ([], some p)
    | none => ([replacement], none)

def readFrom : Option Pending → Bytes → Text
  | none, [] => []
  | some _, [] => [replacement]
  | none, b :: bs => (readFirst b).1 ++ readFrom (readFirst b).2 bs
  | some p, b :: bs =>
    if p.low ≤ b ∧ b ≤ p.high then
      let value := 64 * p.value + (b.toNat - 0x80)
      if p.missing = 1 then Char.ofNat value :: readFrom none bs
      else readFrom (some ⟨value, p.missing - 1, 0x80, 0xBF⟩) bs
    else replacement :: ((readFirst b).1 ++ readFrom (readFirst b).2 bs)

def display (b : Bytes) : String := b.text?.getD (String.ofList (readFrom none b))

end Bytes

end CallGuard
