import CallGuard.Proofs.Marking
import Mathlib.Data.List.Basic
set_option autoImplicit false

/-!
# Validity

What it means that a dialect has no fault.
-/
namespace CallGuard

theorem firstRepeated_eq_none_iff {cs : List Char} : firstRepeated cs = none ↔ cs.Nodup := by
  induction cs with
  | nil => simp [firstRepeated]
  | cons c cs ih =>
    rw [firstRepeated, List.nodup_cons, ← ih]
    by_cases hc : c ∈ cs <;> simp [hc]

def Dialect.roles (d : Dialect) : List Char := [d.quote, d.escape, d.openDelim, d.closeDelim]

structure Dialect.Valid (d : Dialect) : Prop where
  openMarker : trim d.openMarker ≠ []
  closeMarker : trim d.closeMarker ≠ []
  markers : trim d.openMarker ≠ trim d.closeMarker
  someToken : d.callTokens ≠ []
  tokens : ∀ token ∈ d.callTokens, isIdentifier token
  comment : d.lineComment ≠ []
  roles : d.roles.Nodup
  window : 1 ≤ d.window ∧ d.window ≤ maxWindow

theorem Dialect.fault?_eq_none_iff {d : Dialect} : d.fault? = none ↔ d.Valid := by
  constructor
  · intro h
    unfold Dialect.fault? at h
    split at h
    · cases h
    · rename_i h1
      split at h
      · cases h
      · rename_i h2
        split at h
        · cases h
        · rename_i h3
          split at h
          · cases h
          · rename_i h4
            split at h
            · cases h
            · rename_i h5
              split at h
              · cases h
              · rename_i h6
                split at h
                · cases h
                · rename_i h7
                  simp only [Bool.or_eq_true, List.isEmpty_iff, not_or] at h1 h3 h5
                  exact {
                    openMarker := h1.1
                    closeMarker := h1.2
                    markers := h2
                    someToken := h3
                    tokens := by simpa using List.find?_eq_none.1 h4
                    comment := h5
                    roles := firstRepeated_eq_none_iff.1 h6
                    window := by omega }
  · intro h
    have tokens : d.callTokens.find? (!isIdentifier ·) = none :=
      List.find?_eq_none.2 (by simpa using h.tokens)
    have roles : firstRepeated [d.quote, d.escape, d.openDelim, d.closeDelim] = none :=
      firstRepeated_eq_none_iff.2 h.roles
    have window := h.window
    simp only [Dialect.fault?, List.isEmpty_iff, Bool.or_eq_true, h.openMarker, h.closeMarker,
      h.markers, h.someToken, tokens, h.comment, roles, or_self, if_false]
    rw [if_neg (by omega)]

end CallGuard
