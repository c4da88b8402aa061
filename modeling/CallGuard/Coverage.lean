import CallGuard.Guard
set_option autoImplicit false

/-!
# Coverage

A call is covered when an open marker with no close marker of its own stands above it within the
window. Declarations and the lines below do not matter here.
-/
namespace CallGuard

structure Uncovered where
  line : Nat
  column : Nat
deriving DecidableEq

def isCovered (d : Dialect) (ls : List Line) (i : Nat) : Bool := (opener d false ls i).toBool

def uncovered (d : Dialect) (ls : List Line) : List Uncovered :=
  ls.zipIdx.filterMap fun (l, i) =>
    match callColumn? d l with
    | some column => if isCovered d ls i then none else some ⟨i, column⟩
    | none => none

end CallGuard
